import Treewalk.Proofs.Grammar.Acceptance
import Treewalk.Proofs.Grammar.Displacement

/-!
# A bad statement is isolated by its semicolon

Tokens that do not hang together may be complained about at any place. If they hold no brace and no keyword
by which the parser would go on, a semicolon after them ends the trouble. Either they are a statement after
all, which then ends with the semicolon, or the declaration is abandoned before the semicolon, and the parser
goes on after it. What follows makes no difference to that (`Setting.value_declaration`), and what was before
makes no difference to what follows. So the parser reads three programs one after the other
(`bad_statement_isolated`).
-/

namespace Treewalk.Grammar

open Routine (call value)

variable {s s' t : State} {i : Nat} {us vs : List Token} {α β : Type}

/-! ## Where the parser goes on -/

/-- After a semicolon the walk stops where it is. -/
theorem State.skip_go_of_semicolon (s : State) {semi : Token} (hsemi : semi.kind = .semicolon)
    (tail : List Token) (index : Nat) :
    State.skip.go s (some semi) index tail = { s with rest := tail, last := some semi, index } := by
  cases tail with
  | nil => rfl
  | cons u tail =>
    have hstop : (some semi).any (·.kind = .semicolon) = true := by simp [hsemi]
    rw [State.skip.go, hstop]
    rfl

/-- The walk passes a semicolon, if nothing stops it before. -/
theorem State.skip_go_semicolon (s : State) {semi : Token} (hsemi : semi.kind = .semicolon)
    (tail : List Token) {last : Option Token} (hlast : last.any (·.kind = .semicolon) = false)
    (hvs : ∀ v ∈ vs, v.kind ≠ .semicolon ∧ State.beginsStatement v.kind = false) (index : Nat) :
    State.skip.go s last index (vs ++ semi :: tail) =
      { s with rest := tail, last := some semi, index := index + vs.length + 1 } := by
  induction vs generalizing last index with
  | nil =>
    have hbegins : State.beginsStatement semi.kind = false := by
      rw [hsemi]
      rfl
    rw [List.nil_append, State.skip.go, hlast, hbegins]
    exact State.skip_go_of_semicolon s hsemi tail (index + 1)
  | cons v vs ih =>
    obtain ⟨hv, hvs⟩ := List.forall_mem_cons.1 hvs
    have hlast' : (some v).any (·.kind = .semicolon) = false := by simpa using hv.1
    rw [List.cons_append, State.skip.go, hlast, hv.2]
    have hmore := ih hlast' hvs (index + 1)
    rw [List.length_cons, ← Nat.add_assoc, Nat.add_right_comm index vs.length 1]
    exact hmore

/-- Tokens that may be a bad statement, the semicolon after them, and what follows it in a program. In
another program, nothing follows it but the end `finish`. -/
structure Setting where
  bad : List Token
  semi : Token
  tail : List Token
  finish : Token
  tame : ∀ t ∈ bad, t.kind ∉ [.semicolon, .leftBrace, .rightBrace, .eof]
  inner : ∀ t ∈ bad.tail, State.beginsStatement t.kind = false
  head : Clear [.kwFor] bad
  semi_kind : semi.kind = .semicolon
  clear : Clear [.kwElse] tail

namespace Setting

variable (S : Setting)

/-- No `for` is among the bad tokens: it may not be the first, and later ones begin no statement. -/
theorem ne_for : ∀ t ∈ S.bad, t.kind ≠ .kwFor := by
  obtain ⟨bad, semi, tail, finish, tame, inner, head, -, -⟩ := S
  intro t ht hfor
  cases bad with
  | nil => cases ht
  | cons u bad =>
    rcases List.mem_cons.1 ht with rfl | ht
    · simp [hfor] at head
    · have hnot := inner t ht
      rw [hfor] at hnot
      cases hnot

/-- Before the semicolon, in both programs at the same place: the bad statement began when `i` tokens were
taken. -/
def Before (i : Nat) (s t : State) : Prop :=
  ∃ us vs, S.bad = us ++ vs ∧ s.index = i + us.length ∧ s.rest = vs ++ S.semi :: S.tail ∧
    (us ≠ [] → s.last = us.getLast?) ∧ t = { s with rest := vs ++ [S.semi], finish := S.finish }

/-- After the semicolon, in both programs. -/
def Past (s t : State) : Prop :=
  s.rest = S.tail ∧ t = { s with rest := [], finish := S.finish }

variable {S}

/-- Before the end of the bad tokens, the next token is one of them or the semicolon. -/
theorem Before.peek (h : S.Before i s t) : s.peek ∈ S.bad ∨ s.peek = S.semi := by
  obtain ⟨us, vs, hbad, -, hrest, -⟩ := h
  unfold State.peek
  rw [hrest, hbad]
  cases vs with
  | nil => exact .inr rfl
  | cons v vs => exact .inl (by simp)

/-- What follows the semicolon makes no difference to parts that do not take it. -/
theorem alongside_before : Alongside (· ≠ .semicolon) (S.Before i) where
  head := by
    rintro s t ⟨us, vs, -, -, hrest, -, rfl⟩
    rw [hrest]
    cases vs <;> rfl
  peek := by
    rintro s t ⟨us, vs, -, -, hrest, -, rfl⟩
    unfold State.peek
    rw [hrest]
    cases vs <;> rfl
  depth := by
    rintro s t ⟨us, vs, -, -, -, -, rfl⟩
    rfl
  advance := by
    rintro s t ⟨us, vs, hbad, hindex, hrest, -, rfl⟩ hkind
    cases vs with
    | nil =>
      refine absurd S.semi_kind ?_
      simpa [State.peek, hrest] using hkind
    | cons v vs =>
      refine ⟨us ++ [v], vs, by simp [hbad], ?_, ?_, ?_, ?_⟩ <;>
        simp [State.advance, hrest, hindex, Nat.add_assoc]
  report := by
    rintro s t ⟨us, vs, hbad, hindex, hrest, hlast, rfl⟩ u complaint
    exact ⟨us, vs, hbad, hindex, hrest, hlast, rfl⟩
  withDepth := by
    rintro s t ⟨us, vs, hbad, hindex, hrest, hlast, rfl⟩ depth
    exact ⟨us, vs, hbad, hindex, hrest, hlast, rfl⟩

/-- **The parser goes on after the semicolon.** -/
theorem synchronize_eq {rest : List Token} (hbad : S.bad = us ++ vs) (hindex : s.index = i + us.length)
    (hrest : s.rest = vs ++ S.semi :: rest) (hlast : us ≠ [] → s.last = us.getLast?) :
    s.synchronize i =
      { s with rest, last := some S.semi, index := i + S.bad.length + 1 } := by
  have hnot : ∀ v ∈ S.bad, v.kind ≠ .semicolon := fun v hv hkind => S.tame v hv (by simp [hkind])
  have hinner : ∀ v ∈ S.bad.tail, v.kind ≠ .semicolon ∧ State.beginsStatement v.kind = false :=
    fun v hv => ⟨hnot v (List.mem_of_mem_tail hv), S.inner v hv⟩
  have hlength : S.bad.length = us.length + vs.length := by rw [hbad, List.length_append]
  unfold State.synchronize
  cases us with
  | nil =>
    -- no token was taken, so that one is taken now
    obtain rfl : S.bad = vs := hbad
    rw [if_pos (by simpa using hindex), State.skip]
    cases hvs : S.bad with
    | nil =>
      rw [hvs] at hrest
      simp only [State.advance, hrest, List.nil_append]
      rw [State.skip_go_of_semicolon _ S.semi_kind]
      simp [hindex]
    | cons v vs =>
      rw [hvs] at hrest hnot hinner
      replace hinner : ∀ v ∈ vs, v.kind ≠ .semicolon ∧ State.beginsStatement v.kind = false := hinner
      have hlast' : (some v).any (·.kind = .semicolon) = false := by
        simpa using hnot v List.mem_cons_self
      simp only [State.advance, hrest, List.cons_append]
      rw [State.skip_go_semicolon _ S.semi_kind rest hlast' hinner]
      simp [hindex, Nat.add_assoc, Nat.add_comm 1]
  | cons u us =>
    have htail : ∀ v ∈ vs, v.kind ≠ .semicolon ∧ State.beginsStatement v.kind = false :=
      fun v hv => hinner v (by simp [hbad, hv])
    have hlast' : s.last.any (·.kind = .semicolon) = false := by
      have hmem : ∀ v, s.last = some v → v ∈ S.bad := by
        intro v hv
        rw [hlast (List.cons_ne_nil u us)] at hv
        rw [hbad]
        exact List.mem_append_left _ (List.mem_of_getLast? hv)
      cases hs : s.last with
      | none => rfl
      | some v => simpa using hnot v (hmem v hs)
    rw [if_neg (by simp [hindex]), State.skip, hrest, State.skip_go_semicolon s S.semi_kind rest hlast' htail]
    simp only [hindex, hlength, Nat.add_assoc]

/-- Giving the declaration up anywhere before its end leads behind the semicolon, whatever follows. -/
theorem Before.synchronize (h : S.Before i s t) : S.Past (s.synchronize i) (t.synchronize i) := by
  obtain ⟨us, vs, hbad, hindex, hrest, hlast, rfl⟩ := h
  rw [synchronize_eq hbad hindex hrest hlast]
  refine ⟨rfl, ?_⟩
  exact synchronize_eq (s := { s with rest := _, finish := _ }) hbad hindex rfl hlast

/-! ## The contract -/

/-- In a bad statement only goals of expressions and statements are put. A statement ends with the semicolon,
everything else before it, and so does what is abandoned. -/
def isolating (S : Setting) (i : Nat) : Routine.Contract Goal.Result Abandoned State where
  pre q := (q.1.isInner = true ∨ q.1 = .statement) ∧ ∃ t, S.Before i q.2 t
  post q out :=
    if q.1.isInner then Echoes (S.Before i) (S.Before i) (S.Before i) (rules q.1) q.2 out
    else Echoes (S.Before i) S.Past (S.Before i) (rules q.1) q.2 out

variable {P : State → State → Prop}

/-- Parts that take no semicolon do the same, whatever follows the semicolon. -/
theorem follows_inner {x : Parse α} (hx : Inner none x) :
    Follows (S.isolating i) (S.Before i) (S.Before i) (S.Before i) x := by
  refine (Plain.follows alongside_before ?_ hx).of_facing
  intro g s hg ht
  exact ⟨⟨.inl hg, ht⟩, fun out hout => by simpa [isolating, hg] using hout⟩

/-- So does a statement inside another one, which ends behind the semicolon. -/
theorem follows_statement_call :
    Follows (S.isolating i) (S.Before i) S.Past (S.Before i) (call .statement) :=
  follows_call fun _ ht => ⟨⟨.inr rfl, ht⟩, fun _ hout => hout⟩

/-- Expecting a semicolon finds it, or gives up before it. -/
theorem follows_semicolon (what : Expected) :
    Follows (S.isolating i) (S.Before i) S.Past (S.Before i) (Parse.expect .semicolon what) := by
  intro s _
  rcases exists_or_clear [.semicolon] s.rest with ⟨u, rest, hs, hu⟩ | hclear
  · rw [List.mem_singleton] at hu
    show (Parse.expect .semicolon what s).Meets _ _
    rw [Parse.expect_taken hs hu]
    rintro t ⟨us, vs, hbad, -, hrest, -, rfl⟩
    cases vs with
    | nil =>
      obtain ⟨rfl, rfl⟩ := List.cons.inj (hs.symm.trans hrest)
      refine ⟨_, Routine.value_of_done rules (Parse.expect_taken rfl hu), ?_⟩
      simp [Past, State.advance, hs]
    | cons v vs =>
      obtain rfl : u = v := (List.cons.inj (hs.symm.trans hrest)).1
      exact absurd (by simp [hu]) (S.tame u (by simp [hbad]))
  · exact alongside_before.refused hclear what S.Past

/-- No brace is found. -/
theorem follows_brace (what : Expected) :
    Follows (S.isolating i) (S.Before i) P (S.Before i) (Parse.expect .leftBrace what) := by
  rintro s ⟨t, us, vs, hbad, -, hrest, -⟩
  refine alongside_before.refused ?_ what P
  rw [hrest]
  cases vs with
  | nil => simp [S.semi_kind]
  | cons v vs =>
    have hv : v.kind ∉ [.semicolon, .leftBrace, .rightBrace, .eof] := S.tame v (by simp [hbad])
    simp_all

/-- No `else` is found after the semicolon. -/
theorem follows_noElse {f : Option Token → Parse α}
    (hf : Follows (S.isolating i) S.Past P (S.Before i) (f none)) :
    Follows (S.isolating i) S.Past P (S.Before i) (Parse.accept? [.kwElse] >>= f) := by
  intro s hs
  have hnone : ∀ {u : State}, Clear [.kwElse] u.rest →
      (Parse.accept? [.kwElse] >>= f) u = f none u :=
    fun hclear => Routine.bind_apply_of_ok (Parse.accept_none hclear) f
  show ((Parse.accept? [.kwElse] >>= f) s).Meets _ _
  obtain ⟨t₀, ht₀⟩ := hs
  rw [hnone (by rw [ht₀.1]; exact S.clear)]
  refine (hf s ⟨t₀, ht₀⟩).mono fun out hout t ht => ?_
  obtain ⟨t', hvalue, hrel⟩ := hout t ht
  refine ⟨t', ?_, hrel⟩
  rw [← hvalue]
  unfold value
  rw [hnone (by rw [ht.2]; exact clear_nil _)]

/-! ### Productions -/

/-- The rest of a variable declaration does the same, whatever follows. -/
theorem variableRest_follows :
    Follows (S.isolating i) (S.Before i) S.Past (S.Before i) variableRest := by
  refine .bind (follows_inner (.expect _ _ nofun)) fun name => ?_
  refine .bind (follows_inner Inner.initialValue) fun init => ?_
  exact .bind (follows_semicolon _) fun _ => follows_pure _

/-- So does an expression statement. -/
theorem expressionStatement_follows :
    Follows (S.isolating i) (S.Before i) S.Past (S.Before i) expressionStatement := by
  refine .bind (follows_inner (.call _ rfl)) fun e => ?_
  exact .bind (follows_semicolon _) fun _ => follows_pure _

/-- So does the rest of a `print` statement. -/
theorem printRest_follows (keyword : Token) :
    Follows (S.isolating i) (S.Before i) S.Past (S.Before i) (printRest keyword) := by
  refine .bind (follows_inner (.call _ rfl)) fun e => ?_
  exact .bind (follows_semicolon _) fun _ => follows_pure _

/-- So does the rest of a `return`. -/
theorem returnRest_follows (keyword : Token) :
    Follows (S.isolating i) (S.Before i) S.Past (S.Before i) (returnRest keyword) := by
  refine .bind (follows_inner (.reportOutside _ _)) fun _ => ?_
  refine .bind (follows_inner (Inner.clause _)) fun value => ?_
  exact .bind (follows_semicolon _) fun _ => follows_pure _

/-- So does the rest of a `while` loop, whose body is a statement. -/
theorem whileRest_follows :
    Follows (S.isolating i) (S.Before i) S.Past (S.Before i) whileRest := by
  refine .bind (follows_inner (.expect _ _ nofun)) fun _ => ?_
  refine .bind (follows_inner (.call _ rfl)) fun condition => ?_
  refine .bind (follows_inner (.expect _ _ nofun)) fun _ => ?_
  exact .bind follows_statement_call fun body => follows_pure _

/-- So does the rest of a conditional: what it looks at behind the semicolon, before an `else` that does
not follow, is the same. -/
theorem ifRest_follows :
    Follows (S.isolating i) (S.Before i) S.Past (S.Before i) ifRest := by
  refine .bind (follows_inner (.expect _ _ nofun)) fun _ => ?_
  refine .bind (follows_inner (.call _ rfl)) fun condition => ?_
  refine .bind (follows_inner (.expect _ _ nofun)) fun _ => ?_
  exact .bind follows_statement_call fun consequent => follows_noElse (follows_pure _)

/-- The declaration of a function never gets to its body, because no brace is among the bad tokens. -/
theorem function_follows :
    Follows (S.isolating i) (S.Before i) S.Past (S.Before i) function := by
  refine .bind (follows_inner (.expect _ _ nofun)) fun name => ?_
  refine .bind (follows_inner (.expect _ _ nofun)) fun _ => ?_
  refine .bind (follows_inner Inner.parameterList) fun params => ?_
  refine .bind (follows_inner (.expect _ _ nofun)) fun _ => ?_
  exact .bind (follows_brace _) fun _ _ hs => hs.elim fun _ => False.elim

/-- In a bad statement there is neither a loop of three clauses nor a block. -/
theorem follows_excluded {x : Parse α} {u : Token} (hu : u.kind = .kwFor ∨ u.kind = .leftBrace) :
    Follows (S.isolating i) (Facing (S.Before i) (some u)) P (S.Before i) x := by
  rintro s ⟨t, ht, hnext⟩
  obtain rfl : s.peek = u := hnext u rfl
  refine absurd hu ?_
  rcases ht.peek with hbad | hsemi
  · have htame := S.tame _ hbad
    have hfor := S.ne_for _ hbad
    rintro (h | h) <;> simp_all
  · simp [hsemi, S.semi_kind]

/-- A statement does the same, whatever form its first token has chosen. Blocks and `for` loops are none
of them. -/
theorem statement_follows :
    Follows (S.isolating i) (S.Before i) S.Past (S.Before i) statement := by
  refine .of_facing (alongside_before.look fun u => ?_)
  split
  next h => exact alongside_before.advancing (by simp [h]) (printRest_follows u)
  next h => exact alongside_before.advancing (by simp [h]) ifRest_follows
  next h => exact alongside_before.advancing (by simp [h]) whileRest_follows
  next h => exact follows_excluded (.inl h)
  next h => exact alongside_before.advancing (by simp [h]) (returnRest_follows u)
  next h => exact follows_excluded (.inr h)
  next => exact expressionStatement_follows.facing _

/-- So does a declaration. -/
theorem declarationBody_follows :
    Follows (S.isolating i) (S.Before i) S.Past (S.Before i) declarationBody := by
  refine .of_facing (alongside_before.look fun u => ?_)
  split
  next h => exact alongside_before.advancing (by simp [h]) function_follows
  next h => exact alongside_before.advancing (by simp [h]) variableRest_follows
  next => exact follows_statement_call.facing _

/-- All productions that are put before the semicolon keep to this. -/
theorem rules_keep_isolating (S : Setting) (i : Nat) : Routine.Keeps rules (S.isolating i) := by
  rintro g s ⟨hg, ht⟩
  by_cases hinner : g.isInner = true
  · simp only [isolating, if_pos hinner]
    exact follows_inner (Inner.goal hinner) s ht
  · obtain rfl : g = .statement := hg.resolve_left hinner
    exact statement_follows s ht

/-- **A declaration that begins with a bad statement ends after its semicolon**, whatever follows. -/
theorem value_declaration (hs : s.Sealed) (h : S.Before s.index s t) :
    ∃ d s' t', value rules declaration s = some (.ok d, s') ∧ S.Past s' t' ∧
      value rules declaration t = some (.ok d, t') := by
  obtain ⟨⟨r, s'⟩, -, hrun, -⟩ := rules_within.exists_run (declarationBody_reads hs)
  have hvalue := Routine.value_of_run rules hrun
  have hindex : t.index = s.index := by
    obtain ⟨us, vs, -, -, -, -, rfl⟩ := h
    rfl
  obtain ⟨t', hvalue', hrel⟩ := (rules_keep_isolating S s.index).post_of_value
    (declarationBody_follows s ⟨t, h⟩) hvalue t h
  cases r with
  | ok d => exact ⟨some d, s', t', value_declaration_of_ok hvalue, hrel, value_declaration_of_ok hvalue'⟩
  | error e =>
    refine ⟨none, _, _, value_declaration_of_error hvalue, ?_, value_declaration_of_error hvalue'⟩
    rw [hindex]
    exact Before.synchronize hrel

end Setting

/-! ## Three programs -/

/-- What does not begin the tokens before the end does not begin the list with the end supplied. -/
theorem clear_beforeEnd {kinds : List Kind} {eof : Token} (h : Clear kinds us) (heof : eof.kind = .eof) :
    Clear kinds (State.ofTokens (us ++ [eof])).rest := by
  cases us with
  | nil => simp [State.ofTokens, heof]
  | cons u us =>
    simp only [State.ofTokens, List.cons_append, List.takeWhile_cons]
    split
    · simpa using h
    · exact clear_nil kinds

/-- The parser begins on joined lists with the tokens of the first in front. -/
theorem ofTokens_append {us vs : List Token} (hus : ∀ u ∈ us, u.kind ≠ .eof)
    (hvs : ∃ v ∈ vs, v.kind = .eof) :
    State.ofTokens (us ++ vs) = { State.ofTokens vs with rest := us ++ (State.ofTokens vs).rest } := by
  rcases split_at_end vs with hnone | ⟨ws, t, xs, rfl, hws, ht⟩
  · obtain ⟨v, hv, hkind⟩ := hvs
    exact absurd hkind (hnone v hv)
  · have hboth : ∀ u ∈ us ++ ws, u.kind ≠ .eof := by
      rw [List.forall_mem_append]
      exact ⟨hus, hws⟩
    rw [← List.append_assoc, ofTokens_of_split hboth ht, ofTokens_of_split hws ht]

/-- Outside all function bodies, what is left is read as it would be alone. -/
theorem value_program_as_alone (tokens : List Token) (hs : s.Sealed)
    (hrest : s.rest = (State.ofTokens tokens).rest) (hfinish : s.finish = (State.ofTokens tokens).finish)
    (hdepth : s.depth = 0) (read : List Stmt) :
    ∃ s', value rules (program read) s = some (.ok (read.reverse ++ (parse tokens).program), s') ∧
      s'.diagnostics = s.diagnostics ++ (parse tokens).diagnostics := by
  obtain ⟨program, u, hvalue, hparse⟩ := exists_parse tokens
  have hsame : s.after (State.ofTokens tokens) = s := by
    obtain ⟨rest, finish, index, last, depth, diagnostics, hadError⟩ := s
    obtain rfl : rest = (State.ofTokens tokens).rest := hrest
    obtain rfl : finish = (State.ofTokens tokens).finish := hfinish
    obtain rfl : depth = 0 := hdepth
    simp [State.after, State.ofTokens]
  have hafter := value_program_after (fun _ => rfl) hvalue s
  rw [hsame] at hafter
  refine ⟨s.after u, ?_, by rw [hparse]; rfl⟩
  rw [hparse]
  exact value_program_append hs hafter read

/-- A bad statement is read as it would be alone, and the parser is then after its semicolon. -/
theorem Setting.value_program {S : Setting} (hfinish : S.finish.kind = .eof)
    (hs : s.Sealed) (hrest : s.rest = S.bad ++ S.semi :: S.tail) (hdepth : s.depth = 0) (read : List Stmt) :
    let alone := parse (S.bad ++ [S.semi, S.finish])
    ∃ s', value rules (program read) s = value rules (program (alone.program.reverse ++ read)) s' ∧
      s'.Sealed ∧ s'.rest = S.tail ∧ s'.finish = s.finish ∧ s'.depth = 0 ∧
      s'.diagnostics = s.diagnostics ++ alone.diagnostics := by
  intro alone
  have hmore : ∀ {t : State} {us : List Token}, t.rest = S.bad ++ S.semi :: us → t.peek.kind ≠ .eof := by
    intro t us ht
    unfold State.peek
    rw [ht]
    cases hbad : S.bad with
    | nil => simp [S.semi_kind]
    | cons v vs =>
      have htame : v.kind ∉ [.semicolon, .leftBrace, .rightBrace, .eof] := S.tame v (by simp [hbad])
      simp_all
  have halone : State.ofTokens (S.bad ++ [S.semi, S.finish]) =
      ⟨S.bad ++ [S.semi], S.finish, 0, none, 0, #[], false⟩ := by
    have hend : ∀ t ∈ S.bad ++ [S.semi], t.kind ≠ .eof := by
      rw [List.forall_mem_append]
      refine ⟨fun t ht hkind => S.tame t ht (by simp [hkind]), by simp [S.semi_kind]⟩
    rw [← ofTokens_of_split hend hfinish [], List.append_assoc]
    rfl
  let t : State := { s with rest := S.bad ++ [S.semi], finish := S.finish }
  have ht : t.Sealed := by
    have hsealed := sealed_ofTokens (S.bad ++ [S.semi, S.finish])
    rw [halone] at hsealed
    exact hsealed
  have hbefore : S.Before s.index s t :=
    ⟨[], S.bad, rfl, rfl, hrest, fun h => absurd rfl h, rfl⟩
  obtain ⟨d, s', t', hvalue, ⟨hs', rfl⟩, hvalue'⟩ := Setting.value_declaration hs hbefore
  -- alone, it is read as one declaration, or as none
  obtain ⟨u, hprogram, hdiagnostics⟩ := value_program_as_alone (S.bad ++ [S.semi, S.finish]) ht
    (by rw [halone]) (by rw [halone]) hdepth []
  have hend : ({ s' with rest := [], finish := S.finish } : State).peek.kind = .eof := hfinish
  rw [value_program_of_declaration (hmore rfl) hvalue', value_program_of_end hend] at hprogram
  simp only [List.append_nil, List.reverse_nil, List.nil_append, Option.some.injEq, Prod.mk.injEq,
    Except.ok.injEq] at hprogram
  obtain ⟨hstatements, rfl⟩ := hprogram
  obtain ⟨us, ds, hpassed, -⟩ := declaration_reads.of_value hs hvalue
  refine ⟨s', ?_, hpassed.sealed hs, hs', hpassed.finish, hpassed.depth.trans hdepth, hdiagnostics⟩
  rw [value_program_of_declaration (hmore hrest) hvalue, ← hstatements, List.reverse_reverse]

/-- **A bad statement is isolated by its semicolon.** Before it are declarations without anything wrong, and
after it anything that does not begin with `else`. The bad statement is any tokens, as long as there is no
semicolon and no brace among them, no keyword after the first of them that a statement can begin with, and
neither `for` nor `else` is the first. Then the statements of the three parts are read one after the other, and
the complaints about the two last ones are made one after the other, just as each part alone is read and
complained about. -/
theorem bad_statement_isolated {before bad after : List Token} {semi eof : Token}
    (hbefore : ∀ t ∈ before, t.kind ≠ .eof) (hclean : (parse (before ++ [eof])).diagnostics = #[])
    (htame : ∀ t ∈ bad, t.kind ∉ [.semicolon, .leftBrace, .rightBrace, .eof])
    (hinner : ∀ t ∈ bad.tail, State.beginsStatement t.kind = false)
    (hhead : Clear [.kwFor, .kwElse] bad) (hsemi : semi.kind = .semicolon)
    (hafter : Clear [.kwElse] after) (heof : eof.kind = .eof) :
    let whole := parse (before ++ bad ++ [semi] ++ after ++ [eof])
    let alone := parse (bad ++ [semi, eof])
    let rest := parse (after ++ [eof])
    whole.program = (parse (before ++ [eof])).program ++ alone.program ++ rest.program ∧
      whole.diagnostics = alone.diagnostics ++ rest.diagnostics := by
  intro whole alone rest
  let N := State.ofTokens (after ++ [eof])
  let tokens := before ++ bad ++ [semi] ++ after ++ [eof]
  have hbad : ∀ t ∈ bad, t.kind ≠ .eof := fun t ht hkind => htame t ht (by simp [hkind])
  have hstart : State.ofTokens tokens = { N with rest := before ++ (bad ++ semi :: N.rest) } := by
    have hend : ∀ t ∈ before ++ bad ++ [semi], t.kind ≠ .eof := by
      simp only [List.forall_mem_append]
      exact ⟨⟨hbefore, hbad⟩, by simp [hsemi]⟩
    rw [show tokens = before ++ bad ++ [semi] ++ (after ++ [eof]) by simp [tokens],
      ofTokens_append hend ⟨eof, by simp, heof⟩]
    simp [N]
  have hrest : (State.ofTokens tokens).rest = before ++ (bad ++ semi :: N.rest) := by rw [hstart]
  obtain ⟨hnotFor, hnotElse⟩ : Clear [.kwFor] bad ∧ Clear [.kwElse] bad := clear_append.1 hhead
  let S : Setting := {
    bad, semi, inner := hinner
    tail := N.rest
    finish := eof
    tame := htame
    head := hnotFor
    semi_kind := hsemi
    clear := clear_beforeEnd hafter heof }
  -- the first part is a sentence, which does not take an `else` from the second
  have hsentence := sentence_of_parse hclean
  rw [show beforeEnd (before ++ [eof]) = before from rest_ofTokens_of_split hbefore heof []] at hsentence
  have hfollowing : Clear [.kwElse] (bad ++ semi :: N.rest) := by
    cases bad with
    | nil => simp [hsemi]
    | cons u us => simpa using hnotElse
  have hfirst := hsentence.takes_program hfollowing [] _ hrest rfl
  obtain ⟨s, hsecond, hs, hsrest, hsfinish, hsdepth, hsdiagnostics⟩ := S.value_program heof
    (sealed_ofTokens tokens).beyond (State.rest_beyond hrest []) rfl
    ((parse (before ++ [eof])).program.reverse ++ [])
  have hfinish : s.finish = N.finish := by
    rw [hsfinish, State.beyond, hstart]
  obtain ⟨s', hthird, hdiagnostics⟩ := value_program_as_alone (after ++ [eof]) hs hsrest hfinish hsdepth
    (alone.program.reverse ++ ((parse (before ++ [eof])).program.reverse ++ []))
  have hwhole : parse tokens = _ := parse_eq_of_value (hfirst.trans (hsecond.trans hthird))
  rw [show whole = parse tokens from rfl, hwhole, hdiagnostics, hsdiagnostics]
  refine ⟨by simp [rest], ?_⟩
  simp [State.beyond, State.ofTokens, S, alone, rest]

/-- `print nil; return nil + ; nil` -/
theorem bad_statement_isolated_sum :
    let print := filler .kwPrint
    let «return» := filler .kwReturn
    let semi := filler .semicolon
    let eof := filler .eof
    let before := [print, filler .kwNil, semi]
    let bad := [«return», filler .kwNil, filler .plus]
    let after := [filler .kwNil]
    ((parse (before ++ [eof])).diagnostics = #[] ∧
      (∀ t ∈ bad, t.kind ∉ [.semicolon, .leftBrace, .rightBrace, .eof]) ∧
      ∀ t ∈ bad.tail, State.beginsStatement t.kind = false) ∧
    (parse (before ++ bad ++ [semi] ++ after ++ [eof])).program = [.print print (.literal .nil)] ∧
    (parse (before ++ bad ++ [semi] ++ after ++ [eof])).diagnostics =
      #[.atToken «return» .returnOutsideFunction, .atToken semi (.expected .expression),
        .atToken eof (.expected .statementEnd)] := by
  intro print «return» semi eof before bad after
  have hbefore : parse (before ++ [eof]) = ⟨[.print print (.literal .nil)], #[], false⟩ := rfl
  have hclean : (parse (before ++ [eof])).diagnostics = #[] := by rw [hbefore]
  have htame : ∀ t ∈ bad, t.kind ∉ [.semicolon, .leftBrace, .rightBrace, .eof] := by decide
  have hinner : ∀ t ∈ bad.tail, State.beginsStatement t.kind = false := by decide
  have hhead : Clear [.kwFor, .kwElse] bad := by simp [bad, «return», filler, Token.synthetic]
  have hafter : Clear [.kwElse] after := by simp [after, filler, Token.synthetic]
  obtain ⟨hprogram, hdiagnostics⟩ := @bad_statement_isolated before bad after semi eof (by decide) hclean
    htame hinner hhead rfl hafter rfl
  refine ⟨⟨hclean, htame, hinner⟩, ?_, ?_⟩
  · rw [hprogram, hbefore]
    rfl
  · rw [hdiagnostics]
    rfl

end Treewalk.Grammar
