import Treewalk.Proofs.Evaluation.Origin
import Treewalk.Proofs.Evaluation.Relabelled
import Treewalk.Proofs.Evaluation.Sequence

/-!
# Moving a program that is run

If the tokens of a program are moved, but not those of the functions that the interpreter holds, the
run is the same one, except that the functions it declares have moved, and that a fault at a token of
the program has moved, while one in a function held before has not (`rel_outcome_relabelAll`).

Which of the two a function or a fault is cannot always be seen from it: the same token may be in the program
and in a function that is held. So the tokens are marked first, those of the program as late and those held as
early (`Token.mark`). The evaluator hands marks on with the tokens and looks at none. The run of the marked
program on the marked state stands for both runs. Taking the marks off gives the run of the program itself,
and moving the late tokens, and no others, gives the run of the moved one (`OutcomeMoved`). Nothing has both
marks, because it comes from one of the two places (`origin_of_value`).
-/

namespace Treewalk

/-! ## Marks -/

namespace Token

/-- The token with a mark, which doubles its line: on an even line it comes early, on an odd one late. -/
def mark (late : Bool) (t : Token) : Token :=
  { t with start := { t.start with line := 2 * t.start.line + if late then 1 else 0 } }

/-- Whether the token is marked as late. -/
def late (t : Token) : Bool :=
  t.start.line % 2 = 1

/-- The token without its mark. -/
def unmark (t : Token) : Token :=
  { t with start := { t.start with line := t.start.line / 2 } }

/-- The token without its mark, replaced if it was marked as late. -/
def settle (φ : Token → Token) (t : Token) : Token :=
  if t.late then φ t.unmark else t.unmark

/-- A mark can be read again, so that nothing has both. -/
@[simp] theorem late_mark (late : Bool) (t : Token) : (t.mark late).late = late := by
  cases late <;> simp [Token.late, mark]

/-- A mark can be taken off again. -/
@[simp] theorem unmark_mark (late : Bool) (t : Token) : (t.mark late).unmark = t := by
  have hline : (2 * t.start.line + if late then 1 else 0) / 2 = t.start.line := by
    cases late <;> grind
  unfold unmark mark
  simp only [hline]

variable (φ : Token → Token)

/-- An early token is not replaced. -/
@[simp] theorem settle_mark_false (t : Token) : (t.mark false).settle φ = t := by
  simp [settle]

/-- A late token is. -/
@[simp] theorem settle_mark_true (t : Token) : (t.mark true).settle φ = φ t := by
  simp [settle]

/-- Taking marks off moves tokens only. -/
theorem moves_unmark : Moves unmark :=
  ⟨fun _ => rfl, fun _ => rfl, fun _ => rfl⟩

variable {φ}

/-- Settling marked tokens moves them only. -/
theorem Moves.settle (hφ : Moves φ) : Moves (settle φ) := by
  constructor
  all_goals
    intro t
    unfold Token.settle
    split
  · exact hφ.kind_eq _
  · rfl
  · exact hφ.lexeme_eq _
  · rfl
  · exact hφ.literal_eq _
  · rfl

end Token

/-! ## What is held after replacing tokens -/

namespace Store

variable {φ : Token → Token} {s : Store}

/-- A store with other tokens holds the functions that it held before, with other tokens. -/
theorem binds_relabel {c : Closure} (h : (s.relabel φ).Binds (.function c)) :
    ∃ d, s.Binds (.function d) ∧ c = d.relabel φ := by
  obtain ⟨f, frame, name, hframe, hmem⟩ := h
  unfold relabel at hframe
  rw [Array.getElem?_map, Option.map_eq_some_iff] at hframe
  obtain ⟨frame, hframe, rfl⟩ := hframe
  obtain ⟨⟨key, v⟩, hv, heq⟩ := List.mem_map.1 hmem
  cases v with
  | function d =>
    cases heq
    exact ⟨d, ⟨f, frame, _, hframe, hv⟩, rfl⟩
  | _ => cases heq

/-- So for the functions declared inside of these. -/
theorem declares_relabel {f : Function} (h : (s.relabel φ).Declares f) :
    ∃ g, s.Declares g ∧ f = g.relabel φ := by
  obtain ⟨c, hc, hf⟩ := h
  obtain ⟨d, hd, rfl⟩ := binds_relabel hc
  have hf' : f ∈ (d.declaration.toStmt.relabel φ).functions := hf
  rw [Stmt.functions_relabel] at hf'
  obtain ⟨g, hg, rfl⟩ := List.mem_map.1 hf'
  exact ⟨g, ⟨d, hd, hg⟩, rfl⟩

/-- A store with other tokens mentions the tokens that it mentioned before, changed. -/
theorem mentions_relabel {t : Token} (h : (s.relabel φ).Mentions t) :
    ∃ u, s.Mentions u ∧ t = φ u := by
  obtain ⟨c, hc, ht⟩ := h
  obtain ⟨d, hd, rfl⟩ := binds_relabel hc
  have ht' : t ∈ (d.declaration.toStmt.relabel φ).tokens := ht
  rw [Stmt.tokens_relabel] at ht'
  obtain ⟨u, hu, rfl⟩ := List.mem_map.1 ht'
  exact ⟨u, ⟨d, hd, hu⟩, rfl⟩

end Store

namespace Evaluation

open Token (mark unmark settle)

variable {φ : Token → Token} {s : State} {program : List Stmt}

/-! ## What has moved -/

/-- An end with the tokens in it replaced: that of the fault, and those of the functions in frames. -/
def relabelEnd (φ : Token → Token) (out : Except Fault Unit × State) : Except Fault Unit × State :=
  (out.1.mapError (Fault.relabel φ), out.2.relabel φ)

/-- A function is either one that was held before, with all its tokens marked as early, or one that the
program declares, with all its tokens marked as late. -/
def MarkedFunction (s : Store) (program : List Stmt) (f : Function) : Prop :=
  (∃ g, s.Declares g ∧ f = g.relabel (mark false)) ∨
    ∃ g ∈ Stmt.functionsAll program, f = g.relabel (mark true)

/-- A token is either one of a function that was held before, and marked as early, or one of the program, and
marked as late. -/
def MarkedToken (s : Store) (program : List Stmt) (t : Token) : Prop :=
  (∃ u, s.Mentions u ∧ t = mark false u) ∨ ∃ u ∈ Stmt.tokensAll program, t = mark true u

/-- An end in which everything has the mark of the place that it comes from. -/
structure MarkedEnd (s : Store) (program : List Stmt) (marked : Except Fault Unit × State) : Prop where
  fault : ∀ f, marked.1 = .error f → MarkedToken s program f.token
  function : ∀ f, marked.2.store.Declares f → MarkedFunction s program f

/-- The first end is that of the program, run in the state `s`. The second one is the same, except that what
comes from the program has moved, and nothing that was held before. What comes from where is told by the marks
of a third end, that of the marked program in the marked state: without its marks it is the first, and with its
late tokens moved, and no others, it is the second. -/
def OutcomeMoved (φ : Token → Token) (s : State) (program : List Stmt)
    (out out' : Except Fault Unit × State) : Prop :=
  ∃ marked, outcome (Stmt.relabelAll (mark true) program) (s.relabel (mark false)) = some marked ∧
    MarkedEnd s.store program marked ∧
    out = relabelEnd unmark marked ∧ out' = relabelEnd (settle φ) marked

/-- A fault that comes late has moved, an early one has not. -/
theorem OutcomeMoved.fault_cases {out out' : Except Fault Unit × State}
    (h : OutcomeMoved φ s program out out') {f : Fault} (hf : out.1 = .error f) :
    (s.store.Mentions f.token ∧ out'.1 = .error f) ∨
      f.token ∈ Stmt.tokensAll program ∧ out'.1 = .error (f.relabel φ) := by
  obtain ⟨⟨result, t⟩, -, hmarked, rfl, rfl⟩ := h
  cases result with
  | ok => cases hf
  | error g =>
    obtain rfl : g.relabel unmark = f := Except.error.inj hf
    show (_ ∧ Except.error (g.relabel (settle φ)) = _) ∨ _ ∧ Except.error (g.relabel (settle φ)) = _
    rw [Fault.token_relabel, Fault.relabel_relabel]
    rcases hmarked.fault g rfl with ⟨u, hu, hg⟩ | ⟨u, hu, hg⟩
    · rw [hg, Token.unmark_mark]
      refine .inl ⟨hu, congrArg _ (Fault.relabel_congr ?_)⟩
      rw [hg, Token.settle_mark_false, Token.unmark_mark]
    · rw [hg, Token.unmark_mark]
      refine .inr ⟨hu, congrArg _ (Fault.relabel_congr ?_)⟩
      rw [hg, Token.settle_mark_true, Function.comp_apply, Token.unmark_mark]

/-! ## The marked run stands for both -/

/-- The marked program leaves functions and faults that have a mark. -/
theorem marked_of_value {out : Except Fault Flow × State}
    (h : Routine.value rules (execAll (Stmt.relabelAll (mark true) program))
      (s.relabel (mark false)) = some out) :
    MarkedEnd s.store program (out.1.map fun _ => (), out.2) := by
  obtain ⟨hfault, hdeclares⟩ := origin_of_value h
  constructor
  · intro f hf
    have hf : out.1 = .error f := by
      rcases out with ⟨_ | _, _⟩
      · exact congrArg _ (Except.error.inj hf)
      · cases hf
    rcases hfault f hf with hheld | hnew
    · exact .inl (Store.mentions_relabel hheld)
    · rw [Stmt.tokensAll_relabel] at hnew
      obtain ⟨u, hu, heq⟩ := List.mem_map.1 hnew
      exact .inr ⟨u, hu, heq.symm⟩
  · intro f hf
    rcases hdeclares f hf with hheld | hnew
    · exact .inl (Store.declares_relabel hheld)
    · rw [Stmt.functionsAll_relabel] at hnew
      obtain ⟨g, hg, heq⟩ := List.mem_map.1 hnew
      exact .inr ⟨g, hg, heq.symm⟩

/-- Taking a mark off undoes it, and settling it replaces late tokens only. -/
theorem comp_mark (φ : Token → Token) :
    (∀ late, unmark ∘ mark late = id) ∧ settle φ ∘ mark false = id ∧ settle φ ∘ mark true = φ :=
  ⟨fun late => funext (Token.unmark_mark late), funext (Token.settle_mark_false φ),
    funext (Token.settle_mark_true φ)⟩

/-- The two runs, as what becomes of the marked one. -/
theorem value_eq_map_marked (hφ : Token.Moves φ) (program : List Stmt) (s : State) :
    Routine.value rules (execAll program) s =
      (Routine.value rules (execAll (Stmt.relabelAll (mark true) program))
        (s.relabel (mark false))).map (relabelOutcome unmark) ∧
    Routine.value rules (execAll (Stmt.relabelAll φ program)) s =
      (Routine.value rules (execAll (Stmt.relabelAll (mark true) program))
        (s.relabel (mark false))).map (relabelOutcome (settle φ)) := by
  obtain ⟨hunmark, hkept, hmoved⟩ := comp_mark φ
  rw [← value_relabelAll Token.moves_unmark, ← value_relabelAll hφ.settle]
  simp only [Stmt.relabelAll_relabelAll, State.relabel_relabel, hunmark, hkept, hmoved,
    Stmt.relabelAll_id, State.relabel_id, and_self]

/-- The value of a statement is dropped at the end of a program, with tokens replaced before or after. -/
theorem end_relabelOutcome (φ : Token → Token) (out : Except Fault Flow × State) :
    ((relabelOutcome φ out).1.map fun _ => (), (relabelOutcome φ out).2) =
      relabelEnd φ (out.1.map fun _ => (), out.2) := by
  rcases out with ⟨_ | _, _⟩ <;> rfl

/-- **A program that is moved runs as it did where it was.** Either both runs end or neither does; the
functions that the program declares and the faults at its own tokens have moved, and nothing else. -/
theorem rel_outcome_relabelAll (hφ : Token.Moves φ) (program : List Stmt) (s : State) :
    Option.Rel (OutcomeMoved φ s program) (outcome program s)
      (outcome (Stmt.relabelAll φ program) s) := by
  obtain ⟨hhere, hthere⟩ := value_eq_map_marked hφ program s
  unfold outcome
  rw [hhere, hthere]
  cases hout : Routine.value rules (execAll (Stmt.relabelAll (mark true) program))
      (s.relabel (mark false)) with
  | none => exact .none
  | some out =>
    simp only [Option.map_some, end_relabelOutcome]
    refine .some ⟨(out.1.map fun _ => (), out.2), ?_, marked_of_value hout, rfl, rfl⟩
    unfold outcome
    rw [hout]
    rfl

/-- The moved program ends if the program does. -/
theorem exists_moved (hφ : Token.Moves φ) {out : Except Fault Unit × State}
    (h : outcome program s = some out) :
    ∃ out', outcome (Stmt.relabelAll φ program) s = some out' ∧
      OutcomeMoved φ s program out out' := by
  have hrel := rel_outcome_relabelAll hφ program s
  rw [h] at hrel
  revert hrel
  generalize outcome (Stmt.relabelAll φ program) s = moved
  rintro (hmoved | _)
  exact ⟨_, rfl, hmoved⟩

/-- The program ends if the moved one does. -/
theorem exists_unmoved (hφ : Token.Moves φ) {out' : Except Fault Unit × State}
    (h : outcome (Stmt.relabelAll φ program) s = some out') :
    ∃ out, outcome program s = some out ∧ OutcomeMoved φ s program out out' := by
  have hrel := rel_outcome_relabelAll hφ program s
  rw [h] at hrel
  revert hrel
  generalize outcome program s = unmoved
  rintro (hmoved | _)
  exact ⟨_, rfl, hmoved⟩

end Evaluation

end Treewalk
