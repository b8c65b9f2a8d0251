import Treewalk.Proofs.Evaluation.Heritage
import Treewalk.Proofs.Plan.History

/-!
# A register of all functions

A function value is made when a function statement is executed, and is only handed on from then on. To say so,
a register is kept along the history of a run: it lists the functions in the order in which they are made, each
with its declaration and the frame that it is declared in. The register is no part of the state. What the state
knows of it is its length (`Store.identities`), and that is enough: every function that is the value of a
variable, or that is handed out by a goal, is the one that the register has at the place of its identity
(`Register.Follows`, `Kept.follows`).
-/

namespace Treewalk.Evaluation

open Routine (call become fail modify rulesOf)

/-- Something that happens while a program runs. -/
abbrev Event := Plan.Event (Reply Goal.Result Fault State)

/-- The value that a goal hands out when it has been attended to. -/
def handedOut : (q : Goal × State) → Reply Goal.Result Fault State q → Option Value
  | (.eval _, _), (.ok v, _) => some v
  | (.exec _, _), (.ok (.returned v), _) => some v
  | _, _ => none

/-- The functions that have been made so far, in this order: their declarations, and the frames that they
were declared in. -/
abbrev Register := List (Function × FrameId)

/-- The function that a goal makes itself. -/
def made : Goal × State → Option (Function × FrameId)
  | (.exec (.function name params body), s) => some (⟨name, params, body⟩, s.current)
  | _ => none

/-- What an event adds to the register. -/
def added : Event → Register
  | .put _ => []
  | .answered q _ => (made q).toList

namespace Register

variable {l l' : Register} {s : State} {v : Value}

/-- A function is in the register at the place of its identity. Other values need not be. -/
def Enters (l : Register) : Value → Prop
  | .function c => l[c.identity]? = some (c.declaration, c.frame)
  | _ => True

/-- The register is complete, and has all functions that are values of variables. -/
structure Books (l : Register) (s : State) : Prop where
  identities : s.store.identities = l.length
  enters : ∀ v, s.store.Binds v → l.Enters v

/-- After a goal, the register is complete and has what the goal hands out. -/
structure Accounts (l : Register) (q : Goal × State) (r : Reply Goal.Result Fault State q) : Prop where
  books : l.Books r.2
  enters : ∀ v, handedOut q r = some v → l.Enters v

/-- The register is right at each event of a history, if `l` is the register before. -/
def Follows : Register → List Event → Prop
  | _, [] => True
  | l, .put q :: es => l.Books q.2 ∧ Follows l es
  | l, .answered q r :: es => (l ++ (made q).toList).Accounts q r ∧ Follows (l ++ (made q).toList) es

/-- A function that is in the register is in it after more were made. -/
theorem Enters.mono (h : l.Enters v) (hl : l <+: l') : l'.Enters v := by
  cases v with
  | function c =>
    obtain ⟨more, rfl⟩ := hl
    exact (List.getElem?_append_left (List.getElem?_eq_some_iff.1 h).1).trans h
  | _ => trivial

/-- A history follows the register if its first part does, and the rest follows what the register is by
then. -/
theorem follows_append {es es' : List Event} :
    l.Follows (es ++ es') ↔ l.Follows es ∧ (l ++ es.flatMap added).Follows es' := by
  induction es generalizing l with
  | nil => simp [Follows]
  | cons e es ih =>
    cases e with
    | put q => simp only [List.cons_append, Follows, ih, and_assoc, List.flatMap_cons, added, List.nil_append]
    | answered q r =>
      simp only [List.cons_append, Follows, ih, and_assoc, List.flatMap_cons, added, List.append_assoc]

/-! ## What is done to the variables -/

/-- A declaration keeps the register right, if the value is in it. -/
theorem Books.define (h : l.Books s) (frame : FrameId) (name : String) (hv : l.Enters v) :
    l.Books { s with store := s.store.define frame name v } where
  identities := h.identities
  enters w hw := by
    rcases Store.binds_of_define hw with rfl | hw
    · exact hv
    · exact h.enters w hw

/-- A function is made, and is the value of a variable from then on. -/
theorem Books.function (h : l.Books s) (declaration : Function) (name : String) :
    let made := s.store.newClosure declaration s.current
    Books (l ++ [(declaration, s.current)])
      { s with store := made.2.define s.current name (.function made.1) } where
  identities := by
    rw [List.length_append, ← h.identities]
    rfl
  enters w hw := by
    rcases Store.binds_of_define hw with rfl | hw
    · show (l ++ [(declaration, s.current)])[s.store.identities]? = _
      rw [h.identities]
      exact List.getElem?_concat_length
    · exact (h.enters w hw).mono (List.prefix_append _ _)

end Register

/-- Binding the parameters of a call gives out no identity. -/
theorem identities_defineAll (s : Store) (frame : FrameId) (bindings : List (Token × Value)) :
    (defineAll s frame bindings).identities = s.identities := by
  induction bindings generalizing s with
  | nil => rfl
  | cons b bindings ih => exact ih _

/-! ## The judgement -/

variable {α β : Type}

/-- A plan that begins when the register is `l` ends as `post` says of the register at the last question that
was answered, whatever had been added to it until then. -/
def Kept (post : Register → α → Prop) : Plan (Reply Goal.Result Fault State) α → Register → Prop
  | .done a, l => post l a
  | .ask q k, l => l.Books q.2 ∧ ∀ r (l' : Register), l <+: l' → l'.Accounts q r → Kept post (k r) l'
  | .pass q e, l => l.Books q.2 ∧ ∀ r (l' : Register), l <+: l' → l'.Accounts q r → post l' (cast e r)

/-- In a sequence the register goes on from where the first part has left it. -/
theorem Kept.bind {post : Register → α → Prop} {post' : Register → β → Prop}
    {p : Plan (Reply Goal.Result Fault State) α} {f : α → Plan (Reply Goal.Result Fault State) β}
    {l : Register} (h : Kept post p l) (hf : ∀ a (l' : Register), l <+: l' → post l' a → Kept post' (f a) l') :
    Kept post' (p.bind f) l := by
  induction p generalizing l with
  | done a => exact hf a l (List.prefix_refl l) h
  | ask q k ih =>
    exact ⟨h.1, fun r l' hl hr => ih r (h.2 r l' hl hr) fun a l'' hl' => hf a l'' (hl.trans hl')⟩
  | pass q e =>
    cases e
    exact ⟨h.1, fun r l' hl hr => hf r l' hl (h.2 r l' hl hr)⟩

/-- Less may be asked of the result. -/
theorem Kept.mono {post post' : Register → α → Prop} {p : Plan (Reply Goal.Result Fault State) α}
    {l : Register} (h : Kept post p l) (himp : ∀ l a, post l a → post' l a) : Kept post' p l := by
  induction p generalizing l with
  | done a => exact himp l a h
  | ask q k ih => exact ⟨h.1, fun r l' hl hr => ih r (h.2 r l' hl hr)⟩
  | pass q e => exact ⟨h.1, fun r l' hl hr => himp l' _ (h.2 r l' hl hr)⟩

/-- A routine ends with the register complete and with a good result. -/
def Ends (good : Register → α → Prop) (l : Register) (out : Except Fault α × State) : Prop :=
  l.Books out.2 ∧ ∀ a, out.1 = .ok a → good l a

/-- Begun when the register has at least the entries of `l`, a routine makes no function itself, and ends
with a good result. -/
def Minds (l : Register) (good : Register → α → Prop) (x : Eval α) : Prop :=
  ∀ s (l' : Register), l <+: l' → l'.Books s → Kept (Ends good) (x s) l'

section Minds

variable {l : Register} {good : Register → α → Prop} {good' : Register → β → Prop}

/-- The value that a statement leaves a function with is in the register, if it is a function. -/
def EntersFlow (l : Register) : Flow → Prop
  | .normal => True
  | .returned v => l.Enters v

/-! ### Putting routines together -/

/-- What is pure must have a result that is in the register, and then it still is whenever it is used. -/
theorem minds_pure {a : α} (h : ∀ l' : Register, l <+: l' → good l' a) : Minds l good (pure a) := by
  rintro s l' hl hs
  exact ⟨hs, by rintro _ ⟨⟩; exact h l' hl⟩

/-- A failure hands out nothing. -/
theorem minds_fail (f : Fault) : Minds l good (fail f) := by
  rintro s l' hl hs
  exact ⟨hs, by rintro _ ⟨⟩⟩

/-- What is asked of an expression: the register is right afterwards, and the value is in it. -/
theorem accounts_eval_iff {e : Expr} {s : State} {r : Except Fault Value × State} :
    l.Accounts (.eval e, s) r ↔ Ends Register.Enters l r := by
  obtain ⟨f | v, t⟩ := r
  · exact ⟨fun h => ⟨h.books, fun v hv => by cases hv⟩, fun h => ⟨h.1, fun v hv => by cases hv⟩⟩
  · exact ⟨fun h => ⟨h.books, by rintro _ ⟨⟩; exact h.enters v rfl⟩,
      fun h => ⟨h.1, by rintro _ ⟨⟩; exact h.2 v rfl⟩⟩

/-- What is asked of a statement: the register is right afterwards, and what it returns is in it. -/
theorem accounts_exec_iff {st : Stmt} {s : State} {r : Except Fault Flow × State} :
    l.Accounts (.exec st, s) r ↔ Ends EntersFlow l r := by
  obtain ⟨f | _ | v, t⟩ := r
  · exact ⟨fun h => ⟨h.books, fun v hv => by cases hv⟩, fun h => ⟨h.1, fun v hv => by cases hv⟩⟩
  · exact ⟨fun h => ⟨h.books, by rintro _ ⟨⟩; trivial⟩, fun h => ⟨h.1, fun v hv => by cases hv⟩⟩
  · exact ⟨fun h => ⟨h.books, by rintro _ ⟨⟩; exact h.enters v rfl⟩,
      fun h => ⟨h.1, by rintro _ ⟨⟩; exact h.2 _ rfl⟩⟩

/-- A goal for an expression hands out a value that is in the register. -/
theorem minds_expr (e : Expr) : Minds l Register.Enters (Eval.expr e) :=
  fun _ _ _ hs => ⟨hs, fun _ _ _ hr => accounts_eval_iff.1 hr⟩

/-- A goal for a statement hands out a value that is in the register, if any. -/
theorem minds_stmt (st : Stmt) : Minds l EntersFlow (Eval.stmt st) :=
  fun _ _ _ hs => ⟨hs, fun _ _ _ hr => accounts_exec_iff.1 hr⟩

/-- So does a goal for an expression that is become. -/
theorem minds_becomeEval (e : Expr) : Minds l Register.Enters (become (Goal.eval e)) :=
  fun _ _ _ hs => ⟨hs, fun _ _ _ hr => accounts_eval_iff.1 hr⟩

/-- So does a goal for a statement that is become. -/
theorem minds_becomeExec (st : Stmt) : Minds l EntersFlow (become (Goal.exec st)) :=
  fun _ _ _ hs => ⟨hs, fun _ _ _ hr => accounts_exec_iff.1 hr⟩

/-- The second part works with a register that the first may have added to. -/
theorem minds_bind {x : Eval α} {f : α → Eval β} (hx : Minds l good x)
    (hf : ∀ a (l' : Register), l <+: l' → good l' a → Minds l' good' (f a)) : Minds l good' (x >>= f) := by
  intro s l' hl hs
  refine (hx s l' hl hs).bind ?_
  rintro ⟨e | a, t⟩ l'' hl' ⟨ht, hresult⟩
  · exact ⟨ht, by rintro _ ⟨⟩⟩
  · exact hf a l'' (hl.trans hl') (hresult a rfl) t l'' (List.prefix_refl l'') ht

/-- A choice minds the register if both sides do. -/
theorem minds_ite {c : Prop} [Decidable c] {x y : Eval α} (hx : Minds l good x)
    (hy : Minds l good y) : Minds l good (if c then x else y) := by
  split
  · exact hx
  · exact hy

/-- Which frame is the present one makes no difference to the register. -/
theorem minds_inFrame (frame : FrameId) {x : Eval α} (hx : Minds l good x) :
    Minds l good (Eval.inFrame frame x) := by
  intro s l' hl hs
  refine (hx { s with current := frame } l' hl ⟨hs.identities, hs.enters⟩).bind ?_
  rintro out l'' - ⟨hout, hresult⟩
  exact ⟨⟨hout.identities, hout.enters⟩, hresult⟩

/-- How many calls are under way makes none either. -/
theorem minds_inCall {x : Eval α} (hx : Minds l good x) : Minds l good (Eval.inCall x) := by
  intro s l' hl hs
  refine (hx { s with depth := s.depth + 1 } l' hl ⟨hs.identities, hs.enters⟩).bind ?_
  rintro out l'' - ⟨hout, hresult⟩
  exact ⟨⟨hout.identities, hout.enters⟩, hresult⟩

/-! ### The steps that call no goal -/

/-- A step minds the register if it leaves a state of which the register is right. -/
theorem minds_step {f : State → Except Fault α × State}
    (hf : ∀ s (l' : Register), l <+: l' → l'.Books s → Ends good l' (f s)) : Minds l good (Routine.step f) :=
  hf

/-- So does a change of the state. -/
theorem minds_modify {f : State → State} (hf : ∀ s (l' : Register), l <+: l' → l'.Books s → l'.Books (f s)) :
    Minds l (fun _ _ => True) (modify f) :=
  fun s l' hl hs => ⟨hf s l' hl hs, fun _ _ => trivial⟩

/-- Looking at the present frame changes nothing. -/
theorem minds_current : Minds l (fun _ _ => True) Eval.current :=
  minds_step fun _ _ _ hs => ⟨hs, fun _ _ => trivial⟩

/-- Looking at the depth of calls changes nothing. -/
theorem minds_depth : Minds l (fun _ _ => True) Eval.depth :=
  minds_step fun _ _ _ hs => ⟨hs, fun _ _ => trivial⟩

/-- A new frame holds no function. -/
theorem minds_newFrame (parent : FrameId) : Minds l (fun _ _ => True) (Eval.newFrame parent) :=
  minds_step fun _ _ _ hs =>
    ⟨⟨hs.identities, fun v hv => hs.enters v (Store.binds_of_newFrame hv)⟩, fun _ _ => trivial⟩

/-- A value in the register may be declared. -/
theorem minds_define (name : String) {v : Value} (hv : l.Enters v) :
    Minds l (fun _ _ => True) (Eval.define name v) :=
  minds_modify fun s _ hl hs => hs.define s.current name (hv.mono hl)

/-- What is read of a variable is in the register. -/
theorem minds_get (name : Token) : Minds l Register.Enters (Eval.get name) := by
  refine minds_step fun s l' _ hs => ⟨hs, fun v hv => ?_⟩
  change s.store.get s.current name = .ok v at hv
  unfold Store.get at hv
  cases hlookup : s.store.lookup s.current name.lexeme with
  | none =>
    rw [hlookup] at hv
    cases hv
  | some w =>
    rw [hlookup] at hv
    cases hv
    exact hs.enters v (Store.binds_of_lookup hlookup)

/-- A value in the register may be assigned. -/
theorem minds_assign (name : Token) {v : Value} (hv : l.Enters v) :
    Minds l (fun _ _ => True) (Eval.assign name v) := by
  refine minds_step fun s l' hl hs => ⟨?_, fun _ _ => trivial⟩
  show l'.Books { s with store := (s.store.assign s.current name v).2 }
  unfold Store.assign
  cases s.store.definer? s.current name.lexeme with
  | none => exact hs
  | some frame => exact hs.define frame name.lexeme (hv.mono hl)

/-- Output has nothing to do with functions. -/
theorem minds_print (keyword : Token) (v : Value) : Minds l (fun _ _ => True) (Eval.print keyword v) :=
  minds_step fun _ _ _ hs => ⟨⟨hs.identities, hs.enters⟩, fun _ _ => trivial⟩

/-- A result that is a failure or not must be in the register as it is. -/
theorem minds_ofExcept {x : Except Fault α} (h : ∀ a l', x = .ok a → good l' a) :
    Minds l good (Eval.ofExcept x) :=
  minds_step fun _ l' _ hs => ⟨hs, fun a ha => h a l' ha⟩

/-! ### The routines of the evaluator -/

/-- Operators make no functions. -/
theorem enters_of_unary {o : Token} {v w : Value} (h : unary o v = .ok w) : l.Enters w := by
  cases w with
  | function c => exact absurd rfl (ne_function_of_unary h c)
  | _ => trivial

/-- The results of binary operators are in every register, being no functions. -/
theorem enters_of_binary {o : Token} {v w x : Value} (h : binary o v w = .ok x) : l.Enters x := by
  cases x with
  | function c => exact absurd rfl (ne_function_of_binary h c)
  | _ => trivial

/-- All arguments are in the register, the earlier ones also after the later ones are evaluated. -/
theorem minds_evalAll (es : List Expr) {values : List Value} (hvalues : ∀ v ∈ values, l.Enters v) :
    Minds l (fun l' vs => ∀ v ∈ vs, l'.Enters v) (evalAll es values) := by
  induction es generalizing l values with
  | nil =>
    refine minds_pure fun l' hl v hv => (hvalues v ?_).mono hl
    rwa [List.mem_reverse] at hv
  | cons e es ih =>
    refine minds_bind (minds_expr e) fun value l' hl hvalue => ih ?_
    exact List.forall_mem_cons.2 ⟨hvalue, fun v hv => (hvalues v hv).mono hl⟩

/-- A value that statements return is in the register. -/
theorem minds_execAll (body : List Stmt) : Minds l EntersFlow (execAll body) := by
  induction body generalizing l with
  | nil => exact minds_pure fun _ _ => trivial
  | cons st body ih =>
    refine minds_bind (minds_stmt st) fun flow l' _ hflow => ?_
    cases flow with
    | normal => exact ih
    | returned v => exact minds_pure fun _ hl => Register.Enters.mono hflow hl

/-- Applying a function hands out a value that is in the register. -/
theorem minds_apply (c : Closure) {args : List Value} (hargs : ∀ v ∈ args, l.Enters v) :
    Minds l Register.Enters (apply c args) := by
  refine minds_bind (minds_newFrame _) fun frame l₁ hl₁ _ => ?_
  refine minds_bind (minds_modify fun s l₂ hl₂ hs => ⟨?_, fun v hv => ?_⟩) fun _ _ _ _ => ?_
  · exact (identities_defineAll s.store frame _).trans hs.identities
  · rcases binds_of_defineAll hv with hv | ⟨param, hv⟩
    · exact hs.enters v hv
    · exact (hargs v (List.of_mem_zip hv).2).mono (hl₁.trans hl₂)
  · refine minds_bind (minds_inFrame frame (minds_execAll _)) fun flow _ _ hflow => ?_
    cases flow with
    | normal => exact minds_pure fun _ _ => trivial
    | returned v => exact minds_pure fun _ hl => Register.Enters.mono hflow hl

/-- What is done with a function and its arguments. -/
theorem minds_enter (c : Closure) (paren : Token) {values : List Value}
    (hvalues : ∀ v ∈ values, l.Enters v) :
    Minds l Register.Enters (do
      if values.length ≠ c.arity then
        fail (.arityMismatch paren c.arity values.length)
      else if maxCallDepth ≤ (← Eval.depth) then
        fail (.stackOverflow paren)
      else
        Eval.inCall (apply c values)) := by
  apply minds_ite
  · exact minds_fail _
  · refine minds_bind minds_depth fun d l' hl _ => minds_ite (minds_fail _) ?_
    exact minds_inCall (minds_apply c fun v hv => (hvalues v hv).mono hl)

/-- Every form of expression minds the register; none makes a function. -/
theorem minds_eval (e : Expr) : Minds l Register.Enters (eval e) := by
  cases e with
  | literal value =>
    refine minds_pure fun l' _ => ?_
    cases value <;> trivial
  | grouping inner => exact minds_becomeEval inner
  | unary operator right =>
    exact minds_bind (minds_expr right) fun _ _ _ _ => minds_ofExcept fun _ _ => enters_of_unary
  | binary left operator right =>
    exact minds_bind (minds_expr left) fun _ _ _ _ => minds_bind (minds_expr right) fun _ _ _ _ =>
      minds_ofExcept fun _ _ => enters_of_binary
  | logical left operator right =>
    exact minds_bind (minds_expr left) fun _ _ _ hv =>
      minds_ite (minds_pure fun _ hl => hv.mono hl) (minds_becomeEval right)
  | «variable» name => exact minds_get name
  | assign name value =>
    exact minds_bind (minds_expr value) fun _ _ _ hv =>
      minds_bind (minds_assign name hv) fun _ _ hl _ => minds_pure fun _ hl' => hv.mono (hl.trans hl')
  | call callee paren args =>
    refine minds_bind (minds_expr callee) fun v l' _ _ => ?_
    cases v with
    | function c =>
      refine minds_bind (minds_evalAll args fun _ hv => nomatch hv) fun values _ _ hvalues => ?_
      exact minds_enter c paren hvalues
    | _ => exact minds_fail _

/-- Every form of statement but the declaration of a function minds the register. The declaration adds to
it. -/
theorem minds_exec {st : Stmt} (h : ∀ name params body, st ≠ .function name params body) :
    Minds l EntersFlow (exec st) := by
  have hnormal : ∀ {l : Register}, Minds l EntersFlow (pure .normal) := minds_pure fun _ _ => trivial
  cases st with
  | expression e => exact minds_bind (minds_expr e) fun _ _ _ _ => hnormal
  | print keyword e =>
    exact minds_bind (minds_expr e) fun v _ _ _ => minds_bind (minds_print keyword v) fun _ _ _ _ => hnormal
  | var name init =>
    cases init with
    | some e =>
      exact minds_bind (minds_expr e) fun _ _ _ hv => minds_bind (minds_define _ hv) fun _ _ _ _ => hnormal
    | none =>
      have hnil : Minds l Register.Enters (pure .nil) := minds_pure fun _ _ => trivial
      exact minds_bind hnil fun _ _ _ hv => minds_bind (minds_define _ hv) fun _ _ _ _ => hnormal
  | block body =>
    exact minds_bind minds_current fun _ _ _ _ => minds_bind (minds_newFrame _) fun _ _ _ _ =>
      minds_inFrame _ (minds_execAll body)
  | ifThen condition consequent =>
    exact minds_bind (minds_expr condition) fun _ _ _ _ =>
      minds_ite (minds_becomeExec consequent) hnormal
  | ifElse condition consequent alternative =>
    exact minds_bind (minds_expr condition) fun _ _ _ _ =>
      minds_ite (minds_becomeExec consequent) (minds_becomeExec alternative)
  | «while» condition body =>
    refine minds_bind (minds_expr condition) fun _ _ _ _ => minds_ite ?_ hnormal
    refine minds_bind (minds_stmt body) fun flow _ _ hflow => ?_
    cases flow with
    | normal => exact minds_becomeExec _
    | returned v => exact minds_pure fun _ hl => Register.Enters.mono hflow hl
  | function name params body => exact absurd rfl (h name params body)
  | «return» keyword value =>
    cases value with
    | some e => exact minds_bind (minds_expr e) fun _ _ _ hv => minds_pure fun _ hl => hv.mono hl
    | none => exact minds_pure fun _ _ => trivial

end Minds

/-! ## Along a history -/

/-- Each goal adds what it makes itself to what the goals that it calls have added. -/
theorem kept_rules {l : Register} (q : Goal × State) (h : l.Books q.2) :
    Kept (fun l' r => (l' ++ (made q).toList).Accounts q r) (rulesOf rules q) l := by
  obtain ⟨g, s⟩ := q
  cases g with
  | eval e =>
    refine (minds_eval e s l (List.prefix_refl l) h).mono fun l' r hr => ?_
    rw [show (made (.eval e, s)).toList = [] from rfl, List.append_nil]
    exact accounts_eval_iff.2 hr
  | exec st =>
    by_cases hst : ∃ name params body, st = .function name params body
    · obtain ⟨name, params, body, rfl⟩ := hst
      exact accounts_exec_iff.2 ⟨h.function ⟨name, params, body⟩ name.lexeme, by rintro _ ⟨⟩; trivial⟩
    · have hother : ∀ name params body, st ≠ .function name params body :=
        fun name params body hfunction => hst ⟨name, params, body, hfunction⟩
      refine (minds_exec hother s l (List.prefix_refl l) h).mono fun l' r hr => ?_
      have hnone : made (.exec st, s) = none := by
        cases st with
        | function name params body => exact absurd rfl (hother name params body)
        | _ => rfl
      rw [hnone, Option.toList_none, List.append_nil]
      exact accounts_exec_iff.2 hr

/-- **The register is right at each event**, and at the end of a plan. -/
theorem Kept.follows {post : Register → α → Prop} {p : Plan (Reply Goal.Result Fault State) α}
    {es : List Event} {out : Option α} (h : Plan.History (rulesOf rules) p es out) {l : Register}
    (hp : Kept post p l) :
    l.Follows es ∧ ∀ a, out = some a → post (l ++ es.flatMap added) a := by
  induction h generalizing l with
  | done a =>
    refine ⟨trivial, ?_⟩
    rintro _ ⟨⟩
    rw [List.flatMap_nil, List.append_nil]
    exact hp
  | begun => exact ⟨trivial, fun _ ha => by cases ha⟩
  | insideAsk _ ih => exact ⟨⟨hp.1, (ih (kept_rules _ hp.1)).1⟩, fun _ ha => by cases ha⟩
  | insidePass e _ ih => exact ⟨⟨hp.1, (ih (kept_rules _ hp.1)).1⟩, fun _ ha => by cases ha⟩
  | @ask _ q k r es es' out _ _ ihr ih =>
    obtain ⟨hes, hr⟩ := ihr (kept_rules q hp.1)
    have hprefix : l <+: l ++ es.flatMap added ++ (made q).toList := by simp
    obtain ⟨hes', hout⟩ := ih (hp.2 r _ hprefix (hr r rfl))
    refine ⟨⟨hp.1, Register.follows_append.2 ⟨hes, hr r rfl, hes'⟩⟩, fun a ha => ?_⟩
    simpa [added] using hout a ha
  | @pass _ q e r es _ ihr =>
    obtain ⟨hes, hr⟩ := ihr (kept_rules q hp.1)
    have hprefix : l <+: l ++ es.flatMap added ++ (made q).toList := by simp
    refine ⟨⟨hp.1, Register.follows_append.2 ⟨hes, hr r rfl, trivial⟩⟩, ?_⟩
    rintro _ ⟨⟩
    simpa [added] using hp.2 r _ hprefix (hr r rfl)

/-- A value is there at an event: it is the value of a variable, in whatever frame, or it is handed out. -/
def Present : Event → Value → Prop
  | .put q, v => q.2.store.Binds v
  | .answered q r, v => r.2.store.Binds v ∨ handedOut q r = some v

/-- What is there at an event is in the register, from then on. -/
theorem Register.Follows.enters {l : Register} {es : List Event} (h : l.Follows es) {e : Event}
    (he : e ∈ es) {v : Value} (hv : Present e v) : (l ++ es.flatMap added).Enters v := by
  induction es generalizing l with
  | nil => cases he
  | cons e' es ih =>
    rcases List.mem_cons.1 he with rfl | hlater
    · cases e with
      | put q => exact (h.1.enters v hv).mono (List.prefix_append _ _)
      | answered q r =>
        have hnow : (l ++ (made q).toList).Enters v := hv.elim (h.1.books.enters v) (h.1.enters v)
        refine hnow.mono ?_
        rw [List.flatMap_cons, added, ← List.append_assoc]
        exact List.prefix_append _ _
    · cases e' with
      | put q => exact ih h.2 hlater
      | answered q r =>
        rw [List.flatMap_cons, added, ← List.append_assoc]
        exact ih h.2 hlater

/-- What is in a register is equal only if it is the same entry. -/
theorem Register.Enters.eq_of_equals {l : Register} {c d : Closure} (hc : l.Enters (.function c))
    (hd : l.Enters (.function d)) (h : (Value.function c).equals (.function d) = true) :
    c.declaration = d.declaration ∧ c.frame = d.frame := by
  have hidentity : c.identity = d.identity := beq_iff_eq.1 h
  have hsame : l[c.identity]? = some (d.declaration, d.frame) := by
    rw [hidentity]
    exact hd
  have hentry := Option.some.inj ((hc : l[c.identity]? = _).symm.trans hsame)
  exact ⟨congrArg Prod.fst hentry, congrArg Prod.snd hentry⟩

/-- A function that is made is not equal to any value that is in the register. -/
theorem Register.Enters.not_equals {l : Register} {v : Value} (hv : l.Enters v) {c : Closure}
    (hc : c.identity = l.length) :
    v.equals (.function c) = false ∧ (Value.function c).equals v = false := by
  cases v with
  | function d =>
    have hlt : d.identity < c.identity := by
      rw [hc]
      exact (List.getElem?_eq_some_iff.1 hv).1
    exact ⟨beq_eq_false_iff_ne.2 (Nat.ne_of_lt hlt), beq_eq_false_iff_ne.2 (Nat.ne_of_gt hlt)⟩
  | _ => exact ⟨rfl, rfl⟩

end Treewalk.Evaluation
