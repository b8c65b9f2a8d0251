import Mathlib.Data.Set.Function
import Treewalk.Proofs.Evaluation.Printed
import Treewalk.Proofs.Evaluation.Relabelled
import Treewalk.Proofs.Tree.Erase

/-!
# Names are only names

The evaluator compares names and shows them, and does nothing else with them. So if the names of a program
are replaced by others, different ones by different ones, and the places of its tokens by any others, then
the two programs run alike (`respelling`): they print the same values and end in the same way, but for the
names of functions, the name in a fault and the names in the frames (`Prints.exists_renamed`).

This is said of runs without a limit to the output, for a function with a longer name takes more room when
it is printed.
-/

namespace Treewalk

open Token (erase)

/-- The token with its text replaced if it is a name. -/
def Token.rename (ρ : String → String) (t : Token) : Token :=
  if t.kind = .identifier then { t with lexeme := ρ t.lexeme } else t

/-- The token with its text replaced if it is a name, and without its place. -/
def Token.renamed (ρ : String → String) (t : Token) : Token :=
  (t.rename ρ).erase

section Rename

variable (ρ : String → String) (t : Token)

/-- Renaming keeps the kind of a token. -/
@[simp] theorem Token.kind_rename : (t.rename ρ).kind = t.kind := by
  unfold Token.rename
  split <;> rfl

/-- Renaming keeps the value of a token. -/
@[simp] theorem Token.literal_rename : (t.rename ρ).literal = t.literal := by
  unfold Token.rename
  split <;> rfl

/-- A name that is renamed has the new name as its text. -/
theorem Token.lexeme_rename {t : Token} (h : t.kind = .identifier) :
    (t.rename ρ).lexeme = ρ t.lexeme := by
  unfold Token.rename
  rw [if_pos h]

end Rename

/-- A fault is said in the same words wherever its token stands. -/
theorem Fault.message_relabel_erase (f : Fault) : (f.relabel Token.erase).message = f.message := by
  cases f <;> rfl

namespace Evaluation

/-- Tokens are alike if they differ in their places, and names in what replaces them; there is no limit to
the output of either run. -/
def respelling {ρ : String → String} {names : Set String} (hρ : Set.InjOn ρ names) : Likeness where
  token t t' := t'.erase = t.renamed ρ ∧ (t.kind = .identifier → t.lexeme ∈ names)
  named t t' := t'.erase = t.renamed ρ ∧ t.kind = .identifier ∧ t.lexeme ∈ names
  name n n' := n ∈ names ∧ n' = ρ n
  sink s s' := s.room = none ∧ s'.room = none
  identity := Eq
  visible _ := True
  hidden _ := none
  loose := False
  kind_eq := by
    rintro t t' ⟨h, -⟩
    have hkind : t'.erase.kind = (t.renamed ρ).kind := by rw [h]
    exact hkind.trans (t.kind_rename ρ)
  lexeme_like := by
    rintro t t' ⟨h, hname, hmem⟩
    have hlexeme : t'.erase.lexeme = (t.renamed ρ).lexeme := by rw [h]
    exact ⟨hmem, hlexeme.trans (Token.lexeme_rename ρ hname)⟩
  name_iff := by
    rintro m _ n _ ⟨hm, rfl⟩ ⟨hn, rfl⟩
    exact (hρ.eq_iff hm hn).symm
  sink_write := by
    rintro ⟨w, _⟩ ⟨w', _⟩ v v' ⟨rfl, rfl⟩ -
    exact ⟨rfl, rfl, rfl⟩
  identity_iff := Likeness.identity_iff_of_eq

variable {ρ : String → String} {names : Set String} {hρ : Set.InjOn ρ names}

/-- Renaming is a likeness that replaces tokens and names. -/
theorem respelling.replaces : (respelling hρ).Replaces (Token.renamed ρ) erase ρ :=
  ⟨And.left, And.left, And.right, Eq.symm, fun _ => trivial, id⟩

/-- A new interpreter is like itself, because it holds no name. -/
theorem respelling.stateLike_initial :
    (respelling hρ).StateLike (.initial (.empty none)) (.initial (.empty none)) :=
  Likeness.stateLike_initial (fun _ => trivial) (fun _ => rfl) ⟨rfl, rfl⟩

/-- Values that are alike here are the same with their tokens renamed, apart from positions. -/
theorem respelling.values_eq {vs vs' : List Value}
    (h : List.Forall₂ (respelling hρ).ValueLike vs vs') :
    vs'.map (Value.relabel erase) = vs.map (Value.relabel (Token.renamed ρ)) := by
  induction h with
  | nil => rfl
  | cons hv _ ih => rw [List.map_cons, List.map_cons, respelling.replaces.value_eq hv, ih]

/-- Results that are alike here are the same, with the fault renamed, apart from positions. -/
theorem respelling.result_eq {α β : Type} {like : α → β → Prop} {r : Except Fault α}
    {r' : Except Fault β} (h : (respelling hρ).ResultLike like r r') :
    (r'.map fun _ => ()).mapError (Fault.relabel erase) =
      (r.map fun _ => ()).mapError (Fault.relabel (Token.renamed ρ)) := by
  cases h with
  | ok => rfl
  | error hf => exact congrArg Except.error (respelling.replaces.fault_eq hf)

/-- **Programs that differ in their names run alike**: what the second prints, how it ends and the frames
that it leaves are those of the first, with the names replaced. -/
theorem Prints.exists_renamed {program program' : List Stmt}
    (h : (respelling hρ).StmtsLike program program') {vs : List Value} {result : Except Fault Flow}
    {t : State} (hprints : Prints (execAll program) (.initial (.empty none)) vs (result, t)) :
    ∃ vs' result' t', Prints (execAll program') (.initial (.empty none)) vs' (result', t') ∧
      vs'.map (Value.relabel erase) = vs.map (Value.relabel (Token.renamed ρ)) ∧
      (result'.map fun _ => ()).mapError (Fault.relabel erase) =
        (result.map fun _ => ()).mapError (Fault.relabel (Token.renamed ρ)) ∧
      t'.store.relabel erase = t.store.rename (Token.renamed ρ) ρ := by
  obtain ⟨vs', ⟨result', t'⟩, hprints', hvs, hresult, hstate⟩ :=
    hprints.exists_like id (Likeness.execAll_inStep h) respelling.stateLike_initial
  exact ⟨vs', result', t', hprints', respelling.values_eq hvs, respelling.result_eq hresult,
    respelling.replaces.store_eq hstate.store⟩

/-- The first run ends if the second does. -/
theorem respelling.exists_value {program program' : List Stmt}
    (h : (respelling hρ).StmtsLike program program') {out' : Except Fault Flow × State}
    (hvalue : Routine.value rules (execAll program') (.initial (.empty none)) = some out') :
    ∃ out, Routine.value rules (execAll program) (.initial (.empty none)) = some out := by
  have hrel := Likeness.rel_value (Likeness.execAll_inStep h) respelling.stateLike_initial
  rw [hvalue] at hrel
  generalize Routine.value rules (execAll program) (.initial (.empty none)) = o at hrel ⊢
  cases hrel with
  | some _ => exact ⟨_, rfl⟩

end Evaluation

end Treewalk
