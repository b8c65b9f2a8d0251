import Treewalk.Proofs.Grammar.Opening
import Treewalk.Proofs.Grammar.Soundness

/-!
# Where a part of the parser first gives up

As in `Treewalk.Proofs.Grammar.Reading`, one judgement is made of every part of the parser, and one rule
stands for every step that a part can be made of. `Locates n x s V` says of a part `x` that starts in the
state `s`, and whose goals are nested at most `n` deep, that if it ends, then in one of three ways
(`Located`):

* it ends with a result, and no complaint was fatal;
* it is given up itself. Before that it took some tokens `us` and noted nothing fatal, then a complaint about
  the next token (`Stops`), and `V us` holds;
* a declaration that is read on the way was given up before anything else was, in such a state.

For a goal, `Opened` is the `V`: the tokens that were taken can be completed to what the goal stands for.
The judgement is about tokens with values only (`State.Ready`): a number without one is complained about
after it was taken, and not as the next token.
-/

namespace Treewalk.Grammar

open Routine (call become attempt value denote rulesOf)
open Plan (Puts)

/-! ## States -/

/-- The tokens that are left have their values, and none of them marks the end. -/
structure State.Ready (s : State) : Prop where
  isSealed : s.Sealed
  valued : ∀ t ∈ s.rest, t.Valued

/-- From `s` to `s'` the tokens `us` were taken, and nothing fatal was noted before a complaint about the next
token. -/
structure Stops (s : State) (us : List Token) (s' : State) : Prop where
  rest : s.rest = us ++ s'.rest
  finish : s'.finish = s.finish
  noted : ∃ ds c, s'.diagnostics = s.diagnostics ++ (ds ++ [.atToken s'.peek c]) ∧ Harmless ds

variable {s s' s'' t : State} {us vs : List Token} {ds es : List Diagnostic}

/-- Beyond some tokens the parser is ready, if it was before them. -/
theorem Passed.ready (h : Passed s us ds s') (hs : s.Ready) : s'.Ready := by
  refine ⟨h.sealed hs.isSealed, fun t ht => hs.valued t ?_⟩
  rw [h.rest]
  exact List.mem_append_right us ht

/-- What was taken and noted is known from the states before and after. -/
theorem Passed.unique {us' : List Token} {ds' : List Diagnostic} (h : Passed s us ds s')
    (h' : Passed s us' ds' s') : us' = us ∧ ds' = ds := by
  constructor
  · exact List.append_cancel_right (h'.rest.symm.trans h.rest)
  · have hdiagnostics := congrArg Array.toList (h'.diagnostics.symm.trans h.diagnostics)
    simpa using hdiagnostics

/-- A part that stops behind tokens that were read without a fatal complaint stops behind all of them. -/
theorem Passed.stops (h : Passed s us ds s') (hds : Harmless ds) (h' : Stops s' vs s'') :
    Stops s (us ++ vs) s'' := by
  obtain ⟨es, c, hes, hharmless⟩ := h'.noted
  refine ⟨?_, h'.finish.trans h.finish, ds ++ es, c, ?_, harmless_append.2 ⟨hds, hharmless⟩⟩
  · rw [h.rest, h'.rest, List.append_assoc]
  · rw [hes, h.diagnostics]
    exact Array.ext' (by simp)

/-- A complaint about the next token stops the part where it is. -/
theorem stops_report (s : State) (c : Complaint) : Stops s [] (s.report s.peek c) :=
  ⟨rfl, rfl, [], c, by simp [State.report, State.peek], harmless_nil⟩

/-! ## The judgement -/

section Judgement

variable {α β : Type}

/-- What comes of a part of the parser that starts in `s`. -/
inductive Located (x : Parse α) (s : State) (V : List Token → Prop) : Except Abandoned α × State → Prop where
  | read {v : α} {s' : State} {us : List Token} {ds : List Diagnostic} (h : Passed s us ds s')
      (hds : Harmless ds) : Located x s V (.ok v, s')
  | stopped {e : Abandoned} {s' : State} {us : List Token} (h : Stops s us s') (hV : V us) :
      Located x s V (.error e, s')
  | dropped {out : Except Abandoned α × State} {t s' : State} {us : List Token}
      (hputs : Puts (rulesOf rules) (x s) (.declaration, t))
      (hvalue : value rules declarationBody t = some (.error ⟨⟩, s')) (h : Stops s us s') (hV : V us) :
      Located x s V out

/-- The judgement that is explained at the head of this file. -/
def Locates (n : Nat) (x : Parse α) (s : State) (V : List Token → Prop) : Prop :=
  s.Ready → ∀ out, denote rules n x s = some out → Located x s V out

variable {n k m c : Nat} {x : Parse α} {f : α → Parse β} {V V' : List Token → Prop}
  {out : Except Abandoned α × State} {P : List Token → α → List Diagnostic → State → Prop}

/-- A failure that is located for a part is so for any part that puts its goals, with less said of what
was taken. -/
theorem Located.mono (h : Located x s V out) {y : Parse α}
    (hputs : ∀ q, Puts (rulesOf rules) (x s) q → Puts (rulesOf rules) (y s) q)
    (hV : ∀ us, V us → V' us) : Located y s V' out := by
  cases h with
  | read h hds => exact .read h hds
  | stopped h hus => exact .stopped h (hV _ hus)
  | dropped hq hvalue h hus => exact .dropped (hputs _ hq) hvalue h (hV _ hus)

/-- What comes of a part that starts where another one ended well. -/
theorem Located.after {y : Parse α} (hpassed : Passed s us ds s') (hds : Harmless ds)
    (h : Located x s' V out)
    (hputs : ∀ q, Puts (rulesOf rules) (x s') q → Puts (rulesOf rules) (y s) q)
    (hV : ∀ vs, V vs → V' (us ++ vs)) : Located y s V' out := by
  cases h with
  | read h hes => exact .read (hpassed.trans h) (harmless_append.2 ⟨hds, hes⟩)
  | stopped h hvs => exact .stopped (hpassed.stops hds h) (hV _ hvs)
  | dropped hq hvalue h hvs => exact .dropped (hputs _ hq) hvalue (hpassed.stops hds h) (hV _ hvs)

/-- Less may be said of what was taken. -/
theorem Locates.mono (h : Locates n x s V) (hV : ∀ us, V us → V' us) : Locates n x s V' :=
  fun hs out hout => (h hs out hout).mono (fun _ hq => hq) hV

/-- The judgement is about states in which the parser is ready, so this can be assumed. -/
theorem Locates.of_ready (h : s.Ready → Locates n x s V) : Locates n x s V :=
  fun hs => h hs hs

/-- What is judged to read a phrase has read one, when it ends. -/
theorem Reads.of_value {b : Bool} (h : Reads b c m x s P) (hs : s.Sealed)
    (hvalue : value rules x s = some out) : ∃ us ds, Passed s us ds out.2 ∧ Ended m P out.1 us ds out.2 := by
  obtain ⟨out', -, hrun, -, us, ds, hpassed, hended⟩ := rules_within.exists_run (h hs)
  obtain rfl := Option.some.inj ((Routine.value_of_run rules hrun).symm.trans hvalue)
  exact ⟨us, ds, hpassed, hended⟩

/-- A part after another. Of what the first one has read it is known what it is. -/
theorem Locates.bind {b : Bool} {V₁ : List Token → Prop} (hx : Locates n x s V₁)
    (hreads : Reads b c m x s P) (hV : ∀ us, V₁ us → V us)
    (hf : ∀ v us ds s', Passed s us ds s' →
      Locates n (f v) s' fun vs => P us v ds s' → V (us ++ vs)) : Locates n (x >>= f) s V := by
  intro hs out hout
  rw [Routine.denote_bind, Option.bind_eq_some_iff] at hout
  obtain ⟨⟨e | v, s'⟩, hfirst, hout⟩ := hout
  all_goals have hlocated := hx hs _ hfirst
  · cases hout
    cases hlocated with
    | stopped h hus => exact .stopped h (hV _ hus)
    | dropped hq hvalue h hus => exact .dropped (hq.bind _) hvalue h (hV _ hus)
  · cases hlocated with
    | read h hds =>
      have hvalue := Routine.value_of_denote rules hfirst
      obtain ⟨us, ds, hpassed, hended⟩ := hreads.of_value hs.isSealed hvalue
      obtain ⟨rfl, rfl⟩ := h.unique hpassed
      obtain ⟨_, ⟨⟩, hP⟩ := hended.sound hds
      refine (hf v _ _ s' h (h.ready hs) out hout).after h hds (fun q hq => ?_) fun vs hvs => hvs hP
      exact Puts.bind_later hvalue hq
    | dropped hq hvalue h hus => exact .dropped (hq.bind _) hvalue h (hV _ hus)

/-! ## The rules for single steps -/

/-- What is pure is not given up. -/
theorem locates_pure {v : α} : Locates n (pure v) s V := by
  intro _ out hout
  rw [Routine.denote_pure] at hout
  cases hout
  exact .read (Passed.refl s) harmless_nil

/-- A step that ends well, before another part. -/
theorem Locates.after {v : α} (hx : x s = .done (.ok v, s')) (hpassed : Passed s us ds s')
    (hds : Harmless ds) (h : Locates n (f v) s' fun vs => V (us ++ vs)) : Locates n (x >>= f) s V := by
  intro hs out hout
  have hstep := Routine.bind_apply_of_ok hx f
  unfold denote at hout
  rw [hstep] at hout
  refine (h (hpassed.ready hs) out hout).after hpassed hds (fun q hq => ?_) fun vs hvs => hvs
  rwa [hstep]

/-- A step that gives up, with a complaint about the next token. -/
theorem locates_refused {complaint : Complaint} (hx : x s = .done (.error ⟨⟩, s.report s.peek complaint))
    (hV : V []) : Locates n x s V := by
  intro _ out hout
  unfold denote at hout
  rw [hx] at hout
  cases hout
  exact .stopped (stops_report s complaint) hV

/-- A part that looks at the next token is located as what it goes on with. -/
theorem locates_peek {f : Token → Parse β} (h : Locates n (f s.peek) s V) :
    Locates n (Parse.peek >>= f) s V :=
  .after rfl (Passed.refl s) harmless_nil h

/-- So is a part that looks at its kind. -/
theorem locates_peekKind {f : Kind → Parse β} (h : Locates n (f s.peek.kind) s V) :
    Locates n (Parse.peekKind >>= f) s V :=
  .after rfl (Passed.refl s) harmless_nil h

/-- A token that is taken stands before what the rest takes. -/
theorem locates_advance {f : Unit → Parse β} (hkind : s.peek.kind ≠ .eof)
    (h : ∀ s', Passed s [s.peek] [] s' → Locates n (f ()) s' fun us => V (s.peek :: us)) :
    Locates n (Parse.advance >>= f) s V := by
  refine .of_ready fun hs => ?_
  obtain ⟨rest, hrest⟩ := hs.isSealed.exists_rest hkind
  have hpassed := passed_advance hrest
  exact .after rfl hpassed harmless_nil (h _ hpassed)

/-- Where an expected token is missing, the part is given up at once, and nothing has to open what it
reads. -/
theorem locates_expect {kind : Kind} {what : Expected} {f : Token → Parse β} (hV : V [])
    (h : ∀ t s', t.kind = kind → Passed s [t] [] s' → Locates n (f t) s' fun us => V (t :: us)) :
    Locates n (Parse.expect kind what >>= f) s V := by
  rcases exists_or_clear [kind] s.rest with ⟨t, rest, hrest, hkind⟩ | hclear
  · rw [List.mem_singleton] at hkind
    have hpassed := passed_advance hrest
    exact .after (Parse.expect_taken hrest hkind) hpassed harmless_nil (h t _ hkind hpassed)
  · exact locates_refused (Routine.bind_apply_of_error (Parse.expect_refused hclear) f) hV

/-- Accepting a token leads to one of two ways to go on. -/
theorem locates_accept {kinds : List Kind} {f : Option Token → Parse β}
    (hsome : ∀ t s', t.kind ∈ kinds → Passed s [t] [] s' →
      Locates n (f (some t)) s' fun us => V (t :: us))
    (hnone : Locates n (f none) s V) : Locates n (Parse.accept? kinds >>= f) s V := by
  rcases exists_or_clear kinds s.rest with ⟨t, rest, hrest, hkind⟩ | hclear
  · have hpassed := passed_advance hrest
    exact .after (Parse.accept_taken hrest hkind) hpassed harmless_nil (hsome t _ hkind hpassed)
  · exact .after (Parse.accept_none hclear) (Passed.refl s) harmless_nil hnone

/-- A complaint that is not fatal changes nothing. -/
theorem locates_report {f : Unit → Parse β} {t : Token} {complaint : Complaint}
    (hcomplaint : complaint.fatal = false)
    (h : ∀ s', Passed s [] [.atToken t complaint] s' → Locates n (f ()) s' V) :
    Locates n (Parse.report t complaint >>= f) s V :=
  have hpassed := passed_report s t complaint
  .after rfl hpassed (harmless_atToken hcomplaint) (h _ hpassed)

/-- Nor does a complaint about too many entries. -/
theorem locates_reportBeyond {f : Unit → Parse β} {before : Nat} {complaint : Complaint}
    (hcomplaint : complaint.fatal = false)
    (h : ∀ s' ds, Passed s [] ds s' → Locates n (f ()) s' V) :
    Locates n (Parse.reportBeyond before complaint >>= f) s V := by
  have hpassed : Passed s [] (overLimit before s.peek complaint)
      (if maxArguments ≤ before then s.report s.peek complaint else s) := by
    unfold overLimit
    split
    · exact passed_report s s.peek complaint
    · exact Passed.refl s
  exact .after rfl hpassed (harmless_overLimit hcomplaint) (h _ _ hpassed)

/-- Nor does one about a `return` outside function bodies. -/
theorem locates_reportOutside {f : Unit → Parse β} {t : Token}
    (h : ∀ s' ds, Passed s [] ds s' → Locates n (f ()) s' V) :
    Locates n (Parse.reportOutside t .returnOutsideFunction >>= f) s V := by
  have hpassed : ∃ ds, Passed s [] ds
      (if s.depth ≠ 0 then s else s.report t .returnOutsideFunction) ∧ Harmless ds := by
    split
    · exact ⟨[], Passed.refl s, harmless_nil⟩
    · exact ⟨_, passed_report s t _, harmless_atToken rfl⟩
  obtain ⟨ds, hpassed, hds⟩ := hpassed
  exact .after rfl hpassed hds (h _ _ hpassed)

/-- Reading inside a function body is located as the reading is. -/
theorem locates_inFunction (h : Locates n x { s with depth := s.depth + 1 } V) :
    Locates n (Parse.inFunction x) s V := by
  intro hs out hout
  rw [Parse.denote_inFunction, Option.map_eq_some_iff] at hout
  obtain ⟨out, hout, rfl⟩ := hout
  cases h ⟨hs.isSealed, hs.valued⟩ out hout with
  | read h hds =>
    refine .read ⟨h.rest, h.index, h.diagnostics, h.finish, ?_⟩ hds
    show _ - 1 = s.depth
    rw [h.depth, Nat.add_sub_cancel]
  | stopped h hus => exact .stopped ⟨h.rest, h.finish, h.noted⟩ hus
  | dropped hq hvalue h hus => exact .dropped (hq.bind _) hvalue ⟨h.rest, h.finish, h.noted⟩ hus

end Judgement

/-! ## The rules for goals -/

/-- The tokens that were taken for a goal, put in the state `s`, can be completed to what is read for it. -/
def Opened (s : State) : Goal → List Token → Prop
  | .program read => fun us => ∀ ts es, Derives (.declarations s.inBody) ts read.reverse es →
      Opens (.declarations s.inBody) (ts ++ us)
  | .block read => fun us => ∀ ts es, Derives (.declarations s.inBody) ts read.reverse es →
      Opens (.declarations s.inBody) (ts ++ us)
  | .declaration => Opens (.declaration s.inBody)
  | .statement => fun us => ∃ hanging, Opens (.statement s.inBody hanging) us
  | .expression => Opens .expression
  | .operation level => Opens (.operation level)
  | .operatorTail level left => fun us => ∀ ts es, Derives (.operation level) ts left es →
      Opens (.operation level) (ts ++ us)
  | .unary => Opens .unary
  | .calls callee => fun us => ∀ ts es, Derives .call ts callee es → Opens .call (ts ++ us)
  | .arguments read => fun us => ∀ ts es, Derives .arguments ts read.reverse es →
      Opens .arguments (ts ++ us)
  | .parameters read => fun us => (read = [] → Opens .parameters us) ∧
      ∀ ts es comma, Derives .parameters ts read.reverse es → comma.kind = .comma →
        Opens .parameters (ts ++ comma :: us)

/-- What opens the declarations after one more opens those after the ones before it. -/
theorem opens_extended {s' : State} {us vs : List Token} {ds : List Diagnostic} {d : Option Stmt}
    {read : List Stmt} (hd : Built s .declaration us d ds s') (hpassed : Passed s us ds s')
    (hmore : ∀ ts es, Derives (.declarations s'.inBody) ts (d.toList ++ read).reverse es →
      Opens (.declarations s'.inBody) (ts ++ vs)) (ts : List Token) (es : List Diagnostic)
    (hread : Derives (.declarations s.inBody) ts read.reverse es) :
    Opens (.declarations s.inBody) (ts ++ (us ++ vs)) := by
  obtain ⟨d, rfl, hd⟩ := hd
  have hread' := Derives.moreDeclarations hread hd
  rw [← List.reverse_cons, ← hpassed.inBody] at hread'
  rw [← List.append_assoc, ← hpassed.inBody]
  exact hmore _ _ hread'

/-- All goals are located as they should be, if they are nested at most `n` deep. -/
def Locating (n : Nat) : Prop :=
  ∀ g s, Locates n (call g) s (Opened s g)

variable {n : Nat} {g : Goal} {V : List Token → Prop}

/-- A goal that is called is located by the assumption about goals. -/
theorem Locating.call (h : Locating n) (hV : ∀ us, Opened s g us → V us) : Locates n (call g) s V :=
  (h g s).mono hV

/-- So is a goal that is become. -/
theorem Locating.become (h : Locating n) (hV : ∀ us, Opened s g us → V us) :
    Locates n (become g) s V := by
  intro hs out hout
  rw [Routine.denote_become] at hout
  refine (h g s hs out hout).mono (fun q hq => ?_) hV
  cases hq with
  | ask => exact .pass _ _
  | insideAsk _ hq => exact .insidePass _ hq
  | later _ hq => cases hq

/-- A goal is located as its production is. -/
theorem locates_call_of_rule (h : Locates n (rules g) s V) : Locates (n + 1) (call g) s V := by
  intro hs out hout
  rw [Routine.denote_call_succ] at hout
  exact (h hs out hout).mono (fun q hq => .insideAsk _ hq) fun _ hus => hus

end Treewalk.Grammar
