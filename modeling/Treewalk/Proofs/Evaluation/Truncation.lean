import Treewalk.Evaluation.Rules
import Treewalk.Proofs.Plan.Break
import Treewalk.Proofs.Sink

/-!
# Output without room breaks a run off

Two runs of one program from one state, the first without a limit for its output and the second with room
for `N` bytes altogether, do the same as long as the output has at most `N` bytes: the state of the second
is that of the first with a limit (`State.capped`). The text that does not fit is stored as far as it fits,
and the second run ends there. Nothing takes a fault back, so no statement is executed after it, and the
variables keep the values that they have at this moment (`Broken`).

All routines of the evaluator but one do the same up to such a break that happens while one of their goals
is attended to (`Eval.Truncates`). The one is that of a print statement, which can break off by itself
(`upTo_print`). The run without limit goes on after the break, and that it only adds to its output then is
a contract (`appending`), which is shown along with the rest.
-/

namespace Treewalk.Evaluation

open Plan (Course Trails UpTo)
open Routine (call become fail modify value rulesOf)

/-! ## Output with and without limit -/

namespace State

/-- The same state with other room for output. -/
def withRoom (s : State) (room : Option Nat) : State :=
  { s with sink := ⟨s.sink.written, room⟩ }

/-- The output has no limit, and begins with `w`. -/
def Extends (w : ByteArray) (s : State) : Prop :=
  ∃ more, s.sink = ⟨w ++ more, none⟩

/-- The output has no limit, and has at most `N` bytes so far. -/
structure Fits (N : Nat) (s : State) : Prop where
  room : s.sink.room = none
  size_le : s.sink.written.size ≤ N

/-- The same state, but with room for `N` bytes altogether. -/
def capped (N : Nat) (s : State) : State :=
  s.withRoom (some (N - s.sink.written.size))

/-- Output that goes on from `w` has at least its size. -/
theorem Extends.size_le {w : ByteArray} {s : State} (h : s.Extends w) :
    w.size ≤ s.sink.written.size := by
  obtain ⟨more, h⟩ := h
  rw [h, ByteArray.size_append]
  exact Nat.le_add_right _ _

/-- A write without limit goes on from what was there. -/
theorem Extends.append {w : ByteArray} {s : State} (h : s.Extends w) (bytes : ByteArray) :
    { s with sink := (s.sink.write bytes).2 }.Extends w := by
  obtain ⟨more, h⟩ := h
  refine ⟨more ++ bytes, ?_⟩
  rw [h]
  exact congrArg (Sink.mk · none) ByteArray.append_assoc

end State

/-- If there is room for `N` bytes altogether, a text is written as far as that is possible. -/
theorem write_capped {N : Nat} {w : ByteArray} (hw : w.size ≤ N) (bytes : ByteArray) :
    Sink.write ⟨w, some (N - w.size)⟩ bytes =
      if (w ++ bytes).size ≤ N then (.ok (), ⟨w ++ bytes, some (N - (w ++ bytes).size)⟩)
      else (.error ⟨⟩, ⟨(w ++ bytes).extract 0 N, some 0⟩) := by
  have hsize : bytes.size ≤ N - w.size ↔ (w ++ bytes).size ≤ N := by
    rw [ByteArray.size_append]
    omega
  have hroom : N - w.size - bytes.size = N - (w ++ bytes).size := by
    rw [ByteArray.size_append]
    omega
  show (if bytes.size ≤ N - w.size then _ else _) = _
  rw [hroom, extract_append_of_size_le hw]
  exact if_congr hsize rfl rfl

/-! ## The break -/

/-- The goal is a print statement; its value is known in the state `u`, and its text is the one that
begins within the first `N` bytes of the output and ends beyond them. -/
structure Crosses (N : Nat) (goal : Goal × State) (keyword : Token) (u : State) (text : ByteArray) :
    Prop where
  printed : ∃ e v, goal.1 = .exec (.print keyword e) ∧
    value rules (eval e) goal.2 = some (.ok v, u) ∧ text = (v.text ++ "\n").toUTF8
  fits : u.Fits N
  lt_size : N < (u.sink.written ++ text).size

/-- The second run has broken off at a print statement: its output is cut short, and its store is as it
was then. The first run has written the whole text, and may have gone on. -/
def Broken (N : Nat) {α : Type} (goal : Goal × State) (out out' : Except Fault α × State) : Prop :=
  ∃ keyword u text, Crosses N goal keyword u text ∧ out.2.Extends (u.sink.written ++ text) ∧
    out'.1 = .error (.output keyword) ∧ out'.2.store = u.store ∧
    out'.2.sink = ⟨(u.sink.written ++ text).extract 0 N, some 0⟩

/-- There was no break: the results are the same, and so are the states but for the limit. -/
def Same (N : Nat) {α : Type} (out out' : Except Fault α × State) : Prop :=
  out.2.Fits N ∧ out' = (out.1, out.2.capped N)

/-- The output of the second run has room for `N` bytes altogether. -/
def filling (N : Nat) : Plan.Break (Reply Goal.Result Fault State) where
  image q := (q.1, q.2.capped N)
  early q := q.2.Fits N
  late q := N < q.2.sink.written.size
  replied _ := Same N
  broken c _ := Broken N c

/-- Output without limit is only added to. -/
def appending (w : ByteArray) : Routine.Contract Goal.Result Fault State where
  pre q := q.2.Extends w
  post _ out := out.2.Extends w

namespace Eval

/-- A routine only adds to output without limit, and does the same with a limit, up to a break that
happens while one of its goals is attended to. -/
structure Truncates (N : Nat) {α : Type} (x : Eval α) : Prop where
  appends : ∀ w s, s.Extends w → x.Meets (appending w) s fun out => out.2.Extends w
  upTo : (∀ w, Routine.Keeps rules (appending w)) → ∀ own s, s.Fits N →
    UpTo (rulesOf rules) (filling N) own (Same N) (Broken N) (x s) (x (s.capped N))

variable {N : Nat} {α β : Type} {x : Eval α}

/-- After a break the first run goes on with output beyond the limit, and the second hands its fault on
and changes neither store nor output. -/
theorem trails_of_broken (hkeeps : ∀ w, Routine.Keeps rules (appending w)) {goal : Goal × State}
    {out out' : Except Fault α × State} (h : Broken N goal out out')
    {p : Plan (Reply Goal.Result Fault State) (Except Fault β × State)}
    (hp : ∀ w, out.2.Extends w → p.Meets (appending w) fun end' => end'.2.Extends w)
    {last : Except Fault β × State} (hfault : ∀ f, out'.1 = .error f → last.1 = .error f)
    (hstore : last.2.store = out'.2.store) (hsink : last.2.sink = out'.2.sink) :
    Trails (rulesOf rules) (filling N) (Broken N) goal p (.done last) := by
  intro qs end' hcourse
  obtain ⟨keyword, u, text, hcrosses, hextends, hresult, hu, hcut⟩ := h
  obtain ⟨hqs, hend⟩ := (hp _ hextends).course (fun q => hkeeps _ q.1 q.2) hcourse
  refine ⟨fun q hq => Nat.lt_of_lt_of_le hcrosses.lt_size (hqs q hq).size_le, last, rfl, keyword, u, text,
    hcrosses, hend, hfault _ hresult, hstore.trans hu, hsink.trans hcut⟩

/-! ### Putting routines together -/

/-- A step that neither prints nor looks at the room does the same in both runs. -/
theorem truncates_step {f : State → Except Fault α × State} (hsink : ∀ s, (f s).2.sink = s.sink)
    (hroom : ∀ s room, f (s.withRoom room) = ((f s).1, (f s).2.withRoom room)) :
    Truncates N (Routine.step f) where
  appends w s hs := by
    obtain ⟨more, hmore⟩ := hs
    exact ⟨more, (hsink s).trans hmore⟩
  upTo _ own s hs := by
    refine .done ⟨⟨?_, ?_⟩, ?_⟩
    · rw [hsink]
      exact hs.room
    · rw [hsink]
      exact hs.size_le
    · rw [State.capped, State.capped, hroom, hsink]

/-- What is pure does the same in both runs. -/
theorem truncates_pure (a : α) : Truncates N (pure a) :=
  truncates_step (f := fun s => (.ok a, s)) (fun _ => rfl) fun _ _ => rfl

/-- A failure does the same in both runs. -/
theorem truncates_fail (fault : Fault) : Truncates N (fail fault : Eval α) :=
  truncates_step (f := fun s => (.error fault, s)) (fun _ => rfl) fun _ _ => rfl

/-- So does a change of the state that neither prints nor looks at the room. -/
theorem truncates_modify {f : State → State} (hsink : ∀ s, (f s).sink = s.sink)
    (hroom : ∀ s room, f (s.withRoom room) = (f s).withRoom room) : Truncates N (modify f) :=
  truncates_step (f := fun s => (.ok (), f s)) hsink fun s room => Prod.ext rfl (hroom s room)

/-- A goal that is called does the same until it breaks off. -/
theorem truncates_call (g : Goal) : Truncates N (call g) where
  appends _ _ hs := ⟨hs, fun _ hout => hout⟩
  upTo hkeeps own s hs := by
    refine .ask hs (fun _ _ _ hrel => .done hrel) fun goal r r' hrel => ?_
    exact trails_of_broken hkeeps hrel (p := .done r) (fun _ hw => hw) (fun _ h => h) rfl rfl

/-- So does a goal that is become. -/
theorem truncates_become (g : Goal) : Truncates N (become g) where
  appends _ _ hs := ⟨hs, fun _ hout => hout⟩
  upTo _ _ _ hs := .pass hs (fun _ _ hrel => hrel) fun _ _ _ hrel => hrel

/-- A sequence only adds to the output if its parts do. -/
theorem appends_bind {w : ByteArray} {s : State} {f : α → Eval β}
    (hx : x.Meets (appending w) s fun out => out.2.Extends w)
    (hf : ∀ a t, t.Extends w → (f a).Meets (appending w) t fun out => out.2.Extends w) :
    (x >>= f).Meets (appending w) s fun out => out.2.Extends w := by
  rw [Routine.meets_bind]
  refine hx.mono ?_
  rintro ⟨fault | a, t⟩ ht
  · exact ht
  · exact hf a t ht

/-- What follows a break is not begun by the second run. -/
theorem upTo_bind (hkeeps : ∀ w, Routine.Keeps rules (appending w)) {own : Goal × State → Prop}
    {s : State} {f : α → Eval β}
    (hx : UpTo (rulesOf rules) (filling N) own (Same N) (Broken N) (x s) (x (s.capped N)))
    (happends : ∀ a w t, t.Extends w → (f a).Meets (appending w) t fun out => out.2.Extends w)
    (hf : ∀ a t, value rules x s = some (.ok a, t) → t.Fits N →
      UpTo (rulesOf rules) (filling N) own (Same N) (Broken N) (f a t) (f a (t.capped N))) :
    UpTo (rulesOf rules) (filling N) own (Same N) (Broken N) ((x >>= f) s)
      ((x >>= f) (s.capped N)) := by
  refine hx.bind ?_ ?_
  · rintro ⟨r, t⟩ _ hvalue ⟨ht, rfl⟩
    cases r with
    | error fault => exact .done ⟨ht, rfl⟩
    | ok a => exact hf a t hvalue ht
  · rintro goal ⟨r, t⟩ ⟨r', t'⟩ hbroken
    have hfault : ∃ keyword, r' = .error (.output keyword) := by
      obtain ⟨keyword, u, text, -, -, hfault, -⟩ := hbroken
      exact ⟨keyword, hfault⟩
    obtain ⟨keyword, rfl⟩ := hfault
    refine trails_of_broken hkeeps hbroken ?_ (fun fault hfault => ?_) rfl rfl
    · cases r with
      | error fault => exact fun w hw => hw
      | ok a => exact fun w => happends a w t
    · cases hfault
      rfl

/-- A sequence does the same until one of its parts breaks off; the rest of it is then not done in the
second run. -/
theorem truncates_bind {f : α → Eval β} (hx : Truncates N x) (hf : ∀ a, Truncates N (f a)) :
    Truncates N (x >>= f) where
  appends w s hs := appends_bind (hx.appends w s hs) fun a => (hf a).appends w
  upTo hkeeps own s hs :=
    upTo_bind hkeeps (hx.upTo hkeeps own s hs) (fun a => (hf a).appends) fun a t _ =>
      (hf a).upTo hkeeps own t

/-- A choice does the same if both sides do. -/
theorem truncates_ite {c : Prop} [Decidable c] {x y : Eval α} (hx : Truncates N x)
    (hy : Truncates N y) : Truncates N (if c then x else y) := by
  split
  · exact hx
  · exact hy

/-- What is restored after a routine is neither the store nor the output. -/
theorem upTo_ensuring (hkeeps : ∀ w, Routine.Keeps rules (appending w)) {own : Goal × State → Prop}
    {s : State} (restore : State → State)
    (hx : UpTo (rulesOf rules) (filling N) own (Same N) (Broken N) (x s) (x (s.capped N)))
    (hsink : ∀ t, (restore t).sink = t.sink) (hstore : ∀ t, (restore t).store = t.store)
    (hroom : ∀ t room, restore (t.withRoom room) = (restore t).withRoom room) :
    UpTo (rulesOf rules) (filling N) own (Same N) (Broken N) ((x.ensuring restore) s)
      ((x.ensuring restore) (s.capped N)) := by
  refine hx.bind ?_ ?_
  · rintro ⟨r, t⟩ _ - ⟨ht, rfl⟩
    refine .done ⟨⟨?_, ?_⟩, ?_⟩
    · rw [hsink]
      exact ht.room
    · rw [hsink]
      exact ht.size_le
    · show (r, restore (t.withRoom _)) = (r, (restore t).withRoom _)
      rw [hroom, hsink]
  · rintro goal ⟨r, t⟩ ⟨r', t'⟩ hbroken
    refine trails_of_broken hkeeps hbroken (p := .done (r, restore t)) (fun w hw => ?_)
      (fun _ h => h) (hstore t') (hsink t')
    obtain ⟨more, hmore⟩ := hw
    exact ⟨more, (hsink t).trans hmore⟩

/-- Work in another frame does the same; the frame comes back after a break, too. -/
theorem truncates_inFrame (frame : FrameId) (hx : Truncates N x) : Truncates N (inFrame frame x) where
  appends w s hs :=
    (Routine.meets_ensuring (appending w) x (fun t => { t with current := s.current })
      { s with current := frame }).2 (hx.appends w _ hs)
  upTo hkeeps own s hs :=
    upTo_ensuring hkeeps (fun t => { t with current := s.current })
      (hx.upTo hkeeps own { s with current := frame } ⟨hs.room, hs.size_le⟩) (fun _ => rfl) (fun _ => rfl) fun _ _ => rfl

/-- Work inside a call does the same; the depth comes back after a break, too. -/
theorem truncates_inCall (hx : Truncates N x) : Truncates N (inCall x) where
  appends w s hs :=
    (Routine.meets_ensuring (appending w) x (fun t => { t with depth := t.depth - 1 })
      { s with depth := s.depth + 1 }).2 (hx.appends w _ hs)
  upTo hkeeps own s hs :=
    upTo_ensuring hkeeps (fun t => { t with depth := t.depth - 1 })
      (hx.upTo hkeeps own { s with depth := s.depth + 1 } ⟨hs.room, hs.size_le⟩) (fun _ => rfl) (fun _ => rfl) fun _ _ => rfl

/-! ### The routines of the evaluator -/

/-- A result that is a failure or not is the same in both runs. -/
theorem truncates_ofExcept (r : Except Fault α) : Truncates N (ofExcept r) :=
  truncates_step (fun _ => rfl) fun _ _ => rfl

/-- Arguments are evaluated the same until one of them breaks off. -/
theorem truncates_evalAll (es : List Expr) (values : List Value) :
    Truncates N (evalAll es values) := by
  induction es generalizing values with
  | nil => exact truncates_pure _
  | cons e es ih => exact truncates_bind (truncates_call _) fun value => ih (value :: values)

/-- Statements are executed the same until one of them breaks off. -/
theorem truncates_execAll (body : List Stmt) : Truncates N (execAll body) := by
  induction body with
  | nil => exact truncates_pure _
  | cons st body ih =>
    refine truncates_bind (truncates_call _) fun flow => ?_
    cases flow with
    | normal => exact ih
    | returned v => exact truncates_pure _

/-- Creating a frame does not print. -/
theorem truncates_newFrame (parent : FrameId) : Truncates N (newFrame parent) :=
  truncates_step (fun _ => rfl) fun _ _ => rfl

/-- A declaration does not print. -/
theorem truncates_define (name : String) (v : Value) : Truncates N (define name v) :=
  truncates_modify (fun _ => rfl) fun _ _ => rfl

/-- Applying a function does the same until its body breaks off. -/
theorem truncates_apply (f : Closure) (args : List Value) : Truncates N (apply f args) := by
  refine truncates_bind (truncates_newFrame _) fun frame => ?_
  refine truncates_bind (truncates_modify (fun _ => rfl) fun _ _ => rfl) fun _ => ?_
  refine truncates_bind (truncates_inFrame frame (truncates_execAll _)) fun flow => ?_
  cases flow with
  | normal => exact truncates_pure _
  | returned v => exact truncates_pure _

/-- Every form of expression does the same until a call in it breaks off. -/
theorem truncates_eval (e : Expr) : Truncates N (eval e) := by
  cases e with
  | literal value => exact truncates_pure _
  | grouping inner => exact truncates_become _
  | unary operator right =>
    exact truncates_bind (truncates_call _) fun _ => truncates_ofExcept _
  | binary left operator right =>
    exact truncates_bind (truncates_call _) fun _ => truncates_bind (truncates_call _) fun _ =>
      truncates_ofExcept _
  | logical left operator right =>
    exact truncates_bind (truncates_call _) fun _ =>
      truncates_ite (truncates_pure _) (truncates_become _)
  | «variable» name => exact truncates_step (fun _ => rfl) fun _ _ => rfl
  | assign name value =>
    refine truncates_bind (truncates_call _) fun _ => truncates_bind ?_ fun _ => truncates_pure _
    exact truncates_step (fun _ => rfl) fun _ _ => rfl
  | call callee paren args =>
    refine truncates_bind (truncates_call _) fun v => ?_
    cases v with
    | function f =>
      refine truncates_bind (truncates_evalAll args []) fun values => ?_
      refine truncates_ite (truncates_fail _) ?_
      refine truncates_bind (truncates_step (fun _ => rfl) fun _ _ => rfl) fun depth => ?_
      exact truncates_ite (truncates_fail _) (truncates_inCall (truncates_apply f values))
    | _ => exact truncates_fail _

/-- All statements but those that print. -/
theorem truncates_exec (st : Stmt) :
    (∃ keyword e, st = .print keyword e) ∨ Truncates N (exec st) := by
  cases st with
  | print keyword e => exact .inl ⟨keyword, e, rfl⟩
  | expression e => exact .inr (truncates_bind (truncates_call _) fun _ => truncates_pure _)
  | var name init =>
    have hdefine : ∀ v, Truncates N (do define name.lexeme v; pure Flow.normal) := fun v =>
      truncates_bind (truncates_define _ v) fun _ => truncates_pure _
    cases init with
    | some e => exact .inr (truncates_bind (truncates_call _) hdefine)
    | none => exact .inr (truncates_bind (truncates_pure _) hdefine)
  | block body =>
    refine .inr (truncates_bind (truncates_step (fun _ => rfl) fun _ _ => rfl) fun parent => ?_)
    exact truncates_bind (truncates_newFrame parent) fun frame =>
      truncates_inFrame frame (truncates_execAll body)
  | ifThen condition consequent =>
    exact .inr (truncates_bind (truncates_call _) fun _ =>
      truncates_ite (truncates_become _) (truncates_pure _))
  | ifElse condition consequent alternative =>
    exact .inr (truncates_bind (truncates_call _) fun _ =>
      truncates_ite (truncates_become _) (truncates_become _))
  | «while» condition body =>
    refine .inr (truncates_bind (truncates_call _) fun _ => truncates_ite ?_ (truncates_pure _))
    refine truncates_bind (truncates_call _) fun flow => ?_
    cases flow with
    | normal => exact truncates_become _
    | returned v => exact truncates_pure _
  | function name params body =>
    exact .inr (truncates_bind (truncates_modify (fun _ => rfl) fun _ _ => rfl) fun _ =>
      truncates_pure _)
  | «return» keyword value =>
    cases value with
    | some e => exact .inr (truncates_bind (truncates_call _) fun _ => truncates_pure _)
    | none => exact .inr (truncates_bind (truncates_pure _) fun _ => truncates_pure _)

/-! ### Printing -/

/-- Printing a value only adds to the output. -/
theorem appends_print (keyword : Token) (v : Value) (w : ByteArray) (s : State) (hs : s.Extends w) :
    (print keyword v).Meets (appending w) s fun out => out.2.Extends w :=
  hs.append _

/-- So does a `print` statement, with the expression that it evaluates first. -/
theorem appends_exec_print (keyword : Token) (e : Expr) (w : ByteArray) (s : State)
    (hs : s.Extends w) :
    (exec (.print keyword e)).Meets (appending w) s fun out => out.2.Extends w := by
  refine appends_bind ((truncates_call (N := 0) (.eval e)).appends w s hs) fun v t ht => ?_
  exact appends_bind (appends_print keyword v w t ht) fun _ u hu => hu

/-- The one place where a break happens: a text that does not fit is stored as far as it fits. -/
theorem upTo_print {keyword : Token} {e : Expr} {s u : State} {v : Value} (hu : u.Fits N)
    (hvalue : value rules (eval e) s = some (.ok v, u)) :
    UpTo (rulesOf rules) (filling N) (· = (.exec (.print keyword e), s)) (Same N) (Broken N)
      (print keyword v u) (print keyword v (u.capped N)) := by
  let text := (v.text ++ "\n").toUTF8
  have hall : print keyword v u = .done (.ok (), { u with sink := ⟨u.sink.written ++ text, none⟩ }) := by
    show Plan.done (((u.sink.write text).1.mapError fun _ => Fault.output keyword),
      { u with sink := (u.sink.write text).2 }) = _
    rw [Sink.write_of_room hu.room]
    rfl
  have hcapped : print keyword v (u.capped N) =
      .done ((((u.capped N).sink.write text).1.mapError fun _ => Fault.output keyword),
        { u with sink := ((u.capped N).sink.write text).2 }) := rfl
  rw [hall, hcapped, State.capped, State.withRoom, write_capped hu.size_le]
  by_cases hsize : (u.sink.written ++ text).size ≤ N
  · rw [if_pos hsize]
    exact .done ⟨⟨rfl, hsize⟩, rfl⟩
  · rw [if_neg hsize]
    refine .stop (c := (.exec (.print keyword e), s)) rfl fun qs out hcourse => ?_
    cases hcourse
    refine ⟨fun _ hq => (nomatch hq), _, rfl, keyword, u, text, ⟨⟨e, v, rfl, hvalue, rfl⟩, hu, ?_⟩,
      ⟨ByteArray.empty, ?_⟩, rfl, rfl, rfl⟩
    · exact Nat.lt_of_not_le hsize
    · rw [ByteArray.append_empty]

/-- A `print` statement does the same until its expression breaks off, or breaks off by itself where its
text does not fit. -/
theorem upTo_exec_print (hkeeps : ∀ w, Routine.Keeps rules (appending w)) (keyword : Token) (e : Expr)
    {s : State} (hs : s.Fits N) :
    UpTo (rulesOf rules) (filling N) (· = (.exec (.print keyword e), s)) (Same N) (Broken N)
      (exec (.print keyword e) s) (exec (.print keyword e) (s.capped N)) := by
  refine upTo_bind hkeeps ((truncates_call (.eval e)).upTo hkeeps _ s hs) (fun v w t ht => ?_)
    fun v u hvalue hu => ?_
  · exact appends_bind (appends_print keyword v w t ht) fun _ u hu => hu
  · rw [Eval.expr, Routine.value_call] at hvalue
    exact upTo_bind hkeeps (upTo_print hu hvalue) (fun _ _ _ ht => ht) fun _ _ _ ht => .done ⟨ht, rfl⟩

end Eval

/-! ## Two runs -/

/-- **Output without limit is only added to.** -/
theorem appending_keeps (w : ByteArray) : Routine.Keeps rules (appending w)
  | .eval e, s, hs => (Eval.truncates_eval (N := 0) e).appends w s hs
  | .exec st, s, hs => by
    rcases Eval.truncates_exec (N := 0) st with ⟨keyword, e, rfl⟩ | h
    · exact Eval.appends_exec_print keyword e w s hs
    · exact h.appends w s hs

/-- **With a limit the evaluator does the same, up to the print statement whose text is too long.** -/
theorem upTo_rules {N : Nat} (q : Goal × State) (hq : (filling N).early q) :
    UpTo (rulesOf rules) (filling N) (· = q) ((filling N).replied q) ((filling N).broken · q)
      (rulesOf rules q) (rulesOf rules ((filling N).image q)) := by
  obtain ⟨g, s⟩ := q
  cases g with
  | eval e => exact (Eval.truncates_eval e).upTo appending_keeps _ s hq
  | exec st =>
    rcases Eval.truncates_exec st with ⟨keyword, e, rfl⟩ | h
    · exact Eval.upTo_exec_print appending_keeps keyword e hq
    · exact h.upTo appending_keeps _ s hq

/-- While the output grows from `w` to `w ++ o`, this print statement writes the text that byte `n + 1` of
`o` is part of, once its value is known in the state `u`. -/
def PrintsByte (w o : ByteArray) (n : Nat) (goal : Goal × State) (keyword : Token) (u : State) : Prop :=
  ∃ e v more, goal.1 = .exec (.print keyword e) ∧ value rules (eval e) goal.2 = some (.ok v, u) ∧
    w ++ o = u.sink.written ++ (v.text ++ "\n").toUTF8 ++ more ∧
    u.sink.written.size ≤ w.size + n ∧ w.size + n < (u.sink.written ++ (v.text ++ "\n").toUTF8).size

/-- What broke off the second run is the `print` that writes the first byte there is no room for. The
store is the one it had then, and the output is cut at this byte. -/
theorem Broken.printsByte {α : Type} {w o : ByteArray} {n : Nat} {goal : Goal × State}
    {out out' : Except Fault α × State} (h : Broken (w.size + n) goal out out')
    (ho : out.2.sink = ⟨w ++ o, none⟩) :
    ∃ keyword u, PrintsByte w o n goal keyword u ∧ out'.1 = .error (.output keyword) ∧
      out'.2.store = u.store ∧ out'.2.sink = ⟨w ++ o.extract 0 n, some 0⟩ := by
  obtain ⟨keyword, u, text, hcrosses, ⟨more, hmore⟩, hfault, hstore, hsink⟩ := h
  obtain ⟨⟨e, v, hgoal, hvalue, rfl⟩, hfits, hlt⟩ := hcrosses
  have hwritten : w ++ o = u.sink.written ++ (v.text ++ "\n").toUTF8 ++ more :=
    congrArg Sink.written (ho.symm.trans hmore)
  refine ⟨keyword, u, ⟨e, v, more, hgoal, hvalue, hwritten, hfits.size_le, hlt⟩, hfault, hstore, ?_⟩
  -- the text reaches beyond the limit, so that what follows it makes no difference
  have hcut := extract_append_of_size_le (Nat.le_add_right w.size n) o
  rw [Nat.add_sub_cancel_left, hwritten, extract_append_of_le_size (Nat.le_of_lt hlt)] at hcut
  rw [hsink, hcut]

/-- A byte that is printed is within the output. -/
theorem PrintsByte.lt_size {w o : ByteArray} {n : Nat} {goal : Goal × State} {keyword : Token}
    {u : State} (h : PrintsByte w o n goal keyword u) : n < o.size := by
  obtain ⟨e, v, more, -, -, hwritten, -, hlt⟩ := h
  have hsize := congrArg ByteArray.size hwritten
  rw [ByteArray.size_append, ByteArray.size_append] at hsize
  omega

/-- A program is executed from `s` with room for `n` bytes more, and that is too little: the run ends in
`t` at a print statement with this keyword. Without limit, the goals `before` and then the goals `after`
are put and `o` is printed. -/
structure CutOff (program : List Stmt) (s : State) (n : Nat) (o : ByteArray) (keyword : Token)
    (t : State) (before after : List (Goal × State)) : Prop where
  whole : ∃ out, Course (rulesOf rules) (execAll program (s.withRoom none)) (before ++ after) out
  /-- With the limit the goals `before` are put, in the same states but for the room that is left. -/
  course : Course (rulesOf rules) (execAll program (s.withRoom (some n)))
    (before.map fun q => (q.1, q.2.capped (s.sink.written.size + n))) (.error (.output keyword), t)
  /-- These goals are put while at most `n` bytes are printed, and the goals `after` when there are more. -/
  size_le : ∀ q ∈ before, q.2.sink.written.size ≤ s.sink.written.size + n
  lt_size : ∀ q ∈ after, s.sink.written.size + n < q.2.sink.written.size
  printing : ∃ goal ∈ before, ∃ u, PrintsByte s.sink.written o n goal keyword u ∧ t.store = u.store
  sink_eq : t.sink = ⟨s.sink.written ++ o.extract 0 n, some 0⟩

/-- **A limit for the output truncates a run and changes nothing else.** -/
theorem exists_truncated (program : List Stmt) (s : State) (n : Nat) {out : Except Fault Flow × State}
    (h : value rules (execAll program) (s.withRoom none) = some out) :
    ∃ o, out.2.sink = ⟨s.sink.written ++ o, none⟩ ∧
      (o.size ≤ n ∧ value rules (execAll program) (s.withRoom (some n)) =
          some (out.1, out.2.withRoom (some (n - o.size))) ∨
        n < o.size ∧ ∃ keyword t before after, CutOff program s n o keyword t before after) := by
  obtain ⟨goals, hcourse⟩ := Plan.exists_course h
  have htruncates := Eval.truncates_execAll (N := s.sink.written.size + n) program
  have hstart : (s.withRoom none).Extends s.sink.written :=
    ⟨ByteArray.empty, congrArg (Sink.mk · none) ByteArray.append_empty.symm⟩
  obtain ⟨o, ho⟩ : out.2.Extends s.sink.written :=
    (appending_keeps _).post_of_value (htruncates.appends _ _ hstart) h
  have hlimit : (s.withRoom none).capped (s.sink.written.size + n) = s.withRoom (some n) :=
    congrArg (fun room => s.withRoom (some room)) (Nat.add_sub_cancel_left _ n)
  have hupTo := htruncates.upTo appending_keeps (fun _ => False) (s.withRoom none)
    ⟨rfl, Nat.le_add_right _ n⟩
  rw [hlimit] at hupTo
  obtain ⟨⟨r', t⟩, goals', hcourse', hended⟩ := hupTo.exists_course upTo_rules hcourse
  refine ⟨o, ho, ?_⟩
  cases hended with
  | same hgoals hearly hsame =>
    obtain ⟨hfits, hout⟩ := hsame
    have hsize : out.2.sink.written.size = s.sink.written.size + o.size := by
      rw [ho, ByteArray.size_append]
    refine .inl ⟨?_, hcourse'.eval.trans ?_⟩
    · exact Nat.le_of_add_le_add_left (hsize ▸ hfits.size_le)
    · rw [hout, State.capped, hsize, Nat.add_sub_add_left]
  | broken goal before after hgoals hgoals' hearly hlate hgoal hbroken =>
    obtain ⟨keyword, u, hprints, hfault, hstore, hsink⟩ := hbroken.printsByte ho
    cases hfault
    refine .inr ⟨hprints.lt_size, keyword, t, before, after, ?_⟩
    exact {
      whole := ⟨out, hgoals ▸ hcourse⟩
      course := hgoals' ▸ hcourse'
      size_le := fun q hq => (hearly q hq).size_le
      lt_size := hlate
      printing := ⟨goal, hgoal.resolve_left id, u, hprints, hstore⟩
      sink_eq := hsink }

end Treewalk.Evaluation
