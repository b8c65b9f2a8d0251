import Treewalk.Proofs.Evaluation.Copies
import Treewalk.Proofs.Evaluation.Register
import Treewalk.Proofs.Script.Operation
import Treewalk.Proofs.Script.Unreachable

/-!
# The identity of functions

A chronicle tells what has happened in an interpreter since it was new: some texts have been run, the last of
them perhaps not to its end (`Chronicle`). A function value that occurs in it anywhere is one that a function
statement has made. Two that are equal are one and the same, a function that is made is not equal to any value
before, and a copy is equal to its original (`functions_have_identity`).
-/

namespace Treewalk

namespace Script

open Evaluation
open Routine (value rulesOf)

/-- What has happened in an interpreter since it was new, one text after the other. If a state is given, this
is the state now; otherwise a text is being run. -/
inductive Chronicle (sink : Sink) : List Event → Option State → Prop where
  | start : Chronicle sink [] (some (.initial sink))
  | refused {es : List Event} {s : Option State} {source : String} {log log' : Log} {failure : Failure}
      (h : Chronicle sink es s) (hread : read source log = (.error failure, log')) : Chronicle sink es s
  | ran {es es' : List Event} {s : State} {source : String} {log log' : Log} {program : List Stmt}
      {out : Option (Except Fault Flow × State)} (h : Chronicle sink es (some s))
      (hread : read source log = (.ok program, log'))
      (hrun : Plan.History (rulesOf rules) (execAll program s) es' out) :
      Chronicle sink (es ++ es') (out.map Prod.snd)

/-- A value is there at one of the events, or is the value of a variable now. -/
def Occurs (es : List Event) (s : Option State) (v : Value) : Prop :=
  (∃ e ∈ es, Present e v) ∨ ∃ t, s = some t ∧ t.store.Binds v

variable {sink : Sink} {es : List Event} {s : Option State} {t : State} {v : Value}

namespace Chronicle

/-! ## Nothing is left out -/

/-- A text that has been run to its end is the last in a longer chronicle. -/
theorem exists_run (h : Chronicle sink es (some t)) {steps : Nat} {source : String}
    {result : Except Failure Unit} {u : State} {log log' : Log}
    (hrun : run steps source t log = some (result, u, log')) :
    ∃ es', Chronicle sink (es ++ es') (some u) := by
  rcases run_cases hrun with ⟨hread, -, rfl⟩ | ⟨program, flow, hread, hvalue, -⟩
  · exact ⟨[], by rw [List.append_nil]; exact h.refused hread⟩
  · obtain ⟨es', hes'⟩ := Plan.exists_history hvalue
    exact ⟨es', h.ran hread hes'⟩

/-- A goal that is put while a text is run is the last event of a longer chronicle. -/
theorem exists_put (h : Chronicle sink es (some t)) {source : String} {log log' : Log}
    {program : List Stmt} (hread : read source log = (.ok program, log')) {q : Goal × State}
    (hputs : Plan.Puts (rulesOf rules) (execAll program t) q) :
    ∃ es', Chronicle sink (es ++ (es' ++ [.put q])) none := by
  obtain ⟨es', hes'⟩ := hputs.exists_history
  exact ⟨es', h.ran hread hes'⟩

/-! ## What holds all the time -/

/-- The register of all functions made so far is right. -/
theorem follows (h : Chronicle sink es s) :
    Register.Follows [] es ∧ ∀ t, s = some t → Register.Books (es.flatMap added) t := by
  induction h with
  | start =>
    refine ⟨trivial, ?_⟩
    rintro _ ⟨⟩
    exact ⟨rfl, fun v hv => absurd hv (Store.not_binds_initial v)⟩
  | refused _ _ ih => exact ih
  | @ran es es' t _ _ _ program out _ _ hrun ih =>
    obtain ⟨hes, hbooks⟩ := ih
    have hkept := minds_execAll program t (es.flatMap added) (List.prefix_refl _) (hbooks t rfl)
    obtain ⟨hes', hout⟩ := Kept.follows hrun hkept
    refine ⟨Register.follows_append.2 ⟨hes, hes'⟩, fun u hu => ?_⟩
    obtain ⟨⟨flow, _⟩, rfl, rfl⟩ := Option.map_eq_some_iff.1 hu
    rw [List.flatMap_append]
    exact (hout _ rfl).1

/-- The frames are in order, whenever a goal is put. -/
theorem sound (h : Chronicle sink es s) :
    (∀ g t, .put (g, t) ∈ es → t.Sound t.store) ∧ ∀ t, s = some t → t.Sound t.store := by
  induction h with
  | start =>
    refine ⟨fun g t ht => absurd ht List.not_mem_nil, ?_⟩
    rintro _ ⟨⟩
    exact (sound_initial sink).refl
  | refused _ _ ih => exact ih
  | @ran es es' t _ _ _ program out _ _ hrun ih =>
    have ht := ih.2 t rfl
    refine ⟨fun g u hu => ?_, fun u hu => ?_⟩
    · rcases List.mem_append.1 hu with hu | hu
      · exact ih.1 g u hu
      · exact (((tidy_execAll program).keepsFrames ht).begun g u (hrun.puts hu)).refl
    · obtain ⟨⟨flow, _⟩, rfl, rfl⟩ := Option.map_eq_some_iff.1 hu
      exact ((tidy_execAll program).leaves ht hrun.eval).sound.refl

/-- Every value that occurs is in the register, if it is a function. -/
theorem enters (h : Chronicle sink es s) (hv : Occurs es s v) :
    Register.Enters (es.flatMap added) v := by
  obtain ⟨hfollows, hbooks⟩ := h.follows
  rcases hv with ⟨e, he, hv⟩ | ⟨t, ht, hv⟩
  · exact hfollows.enters he hv
  · exact (hbooks t ht).enters v hv

end Chronicle

/-- What the function statement does: it makes a function and defines it. -/
theorem exists_of_function {u : State} (hu : u.Sound u.store) (name : Token) (params : List Token)
    (body : List Stmt) : ∃ (c : Closure) (t : State),
      value rules (exec (.function name params body)) u = some (.ok .normal, t) ∧
      c.identity = u.store.identities ∧ c.declaration = ⟨name, params, body⟩ ∧ c.frame = u.current ∧
      t.store.lookup t.current name.lexeme = some (.function c) := by
  refine ⟨(u.store.newClosure ⟨name, params, body⟩ u.current).1, _, rfl, rfl, rfl, rfl, ?_⟩
  have hordered : (u.store.newClosure ⟨name, params, body⟩ u.current).2.Ordered := hu.wellFormed.ordered
  exact (hordered.lookup_define_self hu.current _).trans (if_pos rfl)

/-- **Functions have an identity.** A chronicle can be told of whatever texts are run on a new interpreter, up
to any moment. Wherever in it and in the present state: two function values that are equal have the same
declaration and were declared in the same frame. Each time a function statement is executed, it makes a
function, which its name is then defined as, and which is not equal to any value that was there before. A copy
of a function is equal to the original, whatever way it is made. -/
theorem functions_have_identity (h : Chronicle sink es s) :
    (∀ (t : State) (source : String) (log log' : Log), s = some t →
      (∀ steps result u, run steps source t log = some (result, u, log') →
        ∃ es', Chronicle sink (es ++ es') (some u)) ∧
      ∀ program q, read source log = (.ok program, log') →
        Plan.Puts (rulesOf rules) (execAll program t) q →
          ∃ es', Chronicle sink (es ++ (es' ++ [.put q])) none) ∧
    (∀ c d : Closure, Occurs es s (.function c) → Occurs es s (.function d) →
      (Value.function c).equals (.function d) = true →
      c.declaration = d.declaration ∧ c.frame = d.frame) ∧
    (∀ (before after : List Event) (name : Token) (params : List Token) (body : List Stmt) (u : State),
      es = before ++ .put (.exec (.function name params body), u) :: after →
      ∃ (c : Closure) (t : State),
        value rules (exec (.function name params body)) u = some (.ok .normal, t) ∧
        c.declaration = ⟨name, params, body⟩ ∧ c.frame = u.current ∧
        t.store.lookup t.current name.lexeme = some (.function c) ∧
        ∀ v, Occurs before (some u) v →
          v.equals (.function c) = false ∧ (Value.function c).equals v = false) ∧
    ((∀ g u, .put (g, u) ∈ es → CopiesKept u) ∧ ∀ u, s = some u → CopiesKept u) := by
  obtain ⟨hputs, hnow⟩ := h.sound
  refine ⟨?_, fun c d hc hd => (h.enters hc).eq_of_equals (h.enters hd), ?_,
    fun g u hu => copiesKept (hputs g u hu), fun u hu => copiesKept (hnow u hu)⟩
  · rintro t source log log' rfl
    exact ⟨fun _ _ _ hrun => h.exists_run hrun, fun _ _ hread hput => h.exists_put hread hput⟩
  · rintro before after name params body u rfl
    obtain ⟨c, t, hvalue, hidentity, hdeclaration, hframe, hlookup⟩ :=
      exists_of_function (hputs _ u (List.mem_append_right _ List.mem_cons_self)) name params body
    obtain ⟨hbefore, hbooks, -⟩ := Register.follows_append.1 h.follows.1
    refine ⟨c, t, hvalue, hdeclaration, hframe, hlookup, fun v hv => ?_⟩
    have hentered : Register.Enters (before.flatMap added) v := by
      rcases hv with ⟨e, he, hv⟩ | ⟨_, ⟨⟩, hv⟩
      · exact hbefore.enters he hv
      · exact hbooks.enters v hv
    exact hentered.not_equals (hidentity.trans hbooks.identities)

/-- The same text is run twice, and makes two functions. -/
theorem functions_have_identity_twice : ∃ es es' s t c d,
    Chronicle (.empty none) es (some s) ∧ Chronicle (.empty none) (es ++ es') (some t) ∧
      s.store.lookup s.current "f" = some (.function c) ∧
      t.store.lookup t.current "f" = some (.function d) ∧
      c.declaration = d.declaration ∧ c.frame = d.frame ∧
      (Value.function c).equals (.function d) = false := by
  obtain ⟨name, keyword, operator, hname, -, -, hread⟩ := read_negated_nil
  let body : List Stmt := [.return keyword (some (.unary operator (.literal .nil)))]
  let q : State → Goal × State := fun u => (.exec (.function name [] body), u)
  have hrun : ∀ u, ∃ t, Plan.History (rulesOf rules) (execAll [.function name [] body] u)
      [.put (q u), .answered (q u) (.ok .normal, t)] (some (.ok .normal, t)) ∧
      value rules (exec (.function name [] body)) u = some (.ok .normal, t) ∧ t.current = u.current :=
    fun u => ⟨_, @Plan.History.ask _ _ _ _ (q u) _ _ [] [] _ (.done _) (.done _), rfl, rfl⟩
  obtain ⟨s, hfirst, hs, hcurrent⟩ := hrun (.initial (.empty none))
  obtain ⟨t, hsecond, ht, hcurrent'⟩ := hrun s
  have hchronicle := Chronicle.start.ran (read_of_ok hread) hfirst
  have hchronicle' := hchronicle.ran (read_of_ok hread) hsecond
  obtain ⟨-, -, hmade, -⟩ := functions_have_identity hchronicle'
  obtain ⟨c, s', hs', hdeclaration, hframe, hlookup, -⟩ := hmade [] _ name [] body _ rfl
  obtain ⟨d, t', ht', hdeclaration', hframe', hlookup', hfresh⟩ := hmade _ _ name [] body s rfl
  obtain rfl : s' = s := congrArg Prod.snd (Option.some.inj (hs'.symm.trans hs))
  obtain rfl : t' = t := congrArg Prod.snd (Option.some.inj (ht'.symm.trans ht))
  rw [hname] at hlookup hlookup'
  refine ⟨_, _, s', t', c, d, hchronicle, hchronicle', hlookup, hlookup', ?_, ?_, ?_⟩
  · rw [hdeclaration, hdeclaration']
  · rw [hframe, hframe', hcurrent]
  · exact (hfresh (.function c) (.inr ⟨s', rfl, Store.binds_of_lookup hlookup⟩)).1

end Script

end Treewalk
