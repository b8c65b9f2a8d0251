import Treewalk.Proofs.Plan.Value
import Treewalk.Proofs.Grammar.Reading

/-!
# Whatever is derived is read

The converse of `Treewalk.Proofs.Grammar.Soundness`: the parser, put before a phrase of the grammar,
reads exactly this phrase, builds what it stands for and notes what is wrong with it, provided that
what follows cannot be taken for a part of it.

`Takes b rest us ds x y` says that `x`, put before the tokens `us` and then `rest`, comes to where `y`
goes on before `rest`, with the complaints `ds` noted on the way; for a part that has ended, `y` is
`pure`. `Understood` says for each symbol which part of the parser reads its phrases and what must not
follow them. The left-recursive symbols need no condition on the end of the recursion: the parser
reads a left operand, and is then before what follows it, just as if this were all it had read.
-/

namespace Treewalk.Grammar

open Routine (value)

/-! ## States further on -/

/-- The state after the tokens `us` were taken and the complaints `ds` were noted. -/
def State.beyond (s : State) (us : List Token) (ds : List Diagnostic) : State :=
  { s with
    rest := s.rest.drop us.length
    index := s.index + us.length
    last := us.getLast?.or s.last
    diagnostics := s.diagnostics ++ ds
    hadError := s.hadError || !ds.isEmpty }

/-- Nothing taken and nothing noted is where the parser is already. -/
@[simp] theorem State.beyond_nil (s : State) : s.beyond [] [] = s := by
  simp [State.beyond]

/-- Beyond some tokens and then beyond others is beyond both. -/
@[simp] theorem State.beyond_beyond (s : State) (us vs : List Token) (ds es : List Diagnostic) :
    (s.beyond us ds).beyond vs es = s.beyond (us ++ vs) (ds ++ es) := by
  have hdiagnostics : s.diagnostics ++ ds ++ es = s.diagnostics ++ (ds ++ es) :=
    Array.ext' (by simp)
  have hhadError : (s.hadError || !ds.isEmpty || !es.isEmpty) = (s.hadError || !(ds ++ es).isEmpty) := by
    cases ds <;> simp
  simp [State.beyond, List.getLast?_append, Option.or_assoc, Nat.add_assoc, hdiagnostics, hhadError]

/-- Beyond some tokens, those behind them are left. -/
theorem State.rest_beyond {s : State} {us rest : List Token} (h : s.rest = us ++ rest)
    (ds : List Diagnostic) : (s.beyond us ds).rest = rest := by
  simp [State.beyond, h]

/-- Taking tokens does not lead into a function body or out of it. -/
@[simp] theorem State.inBody_beyond (s : State) (us : List Token) (ds : List Diagnostic) :
    (s.beyond us ds).inBody = s.inBody := rfl

/-- Taking a token leads beyond it. -/
theorem State.advance_eq_beyond {s : State} {t : Token} {rest : List Token}
    (h : s.rest = t :: rest) : s.advance = s.beyond [t] [] := by
  unfold State.advance State.beyond
  rw [h]
  simp

/-- Noting a complaint takes nothing. -/
theorem State.report_eq_beyond (s : State) (t : Token) (complaint : Complaint) :
    s.report t complaint = s.beyond [] [.atToken t complaint] := by
  simp [State.report, State.beyond]

/-! ## The judgement -/

section Judgement

variable {α β : Type} {b : Bool} {rest us vs : List Token} {ds es : List Diagnostic}

/-- The part `x`, put before `us` and then `rest`, comes to where `y` goes on before `rest`, and has
noted the complaints `ds`. -/
def Takes (b : Bool) (rest us : List Token) (ds : List Diagnostic) (x y : Parse α) : Prop :=
  ∀ s : State, s.rest = us ++ rest → s.inBody = b → value rules x s = value rules y (s.beyond us ds)

/-- Every part is where it is. -/
theorem Takes.refl (x : Parse α) : Takes b rest [] [] x x := by
  intro s _ _
  rw [State.beyond_nil]

/-- A part that comes to where a second goes on, which comes to where a third does, comes to where the
third does. -/
theorem Takes.trans {x y z : Parse α} (h : Takes b (vs ++ rest) us ds x y)
    (h' : Takes b rest vs es y z) : Takes b rest (us ++ vs) (ds ++ es) x z := by
  intro s hs hb
  rw [List.append_assoc] at hs
  rw [h s hs hb, h' _ (State.rest_beyond hs ds) hb, State.beyond_beyond]

/-- A part that has ended hands its result on. -/
theorem Takes.seq {x : Parse α} {f : α → Parse β} {v : α} {y : Parse β}
    (h : Takes b (vs ++ rest) us ds x (pure v)) (h' : Takes b rest vs es (f v) y) :
    Takes b rest (us ++ vs) (ds ++ es) (x >>= f) y := by
  refine Takes.trans (y := f v) ?_ h'
  intro s hs hb
  exact Routine.value_bind_ok rules f (h s hs hb)

/-- What follows notes no complaint. -/
theorem Takes.seq_clean {x : Parse α} {f : α → Parse β} {v : α} {y : Parse β}
    (h : Takes b (vs ++ rest) us ds x (pure v)) (h' : Takes b rest vs [] (f v) y) :
    Takes b rest (us ++ vs) ds (x >>= f) y := by
  have h'' := h.seq h'
  rwa [List.append_nil] at h''

/-- A part with a result, followed by another one, comes to the beginning of that one. -/
theorem Takes.bind {x : Parse α} {v : α} (h : Takes b rest us ds x (pure v)) (f : α → Parse β) :
    Takes b rest us ds (x >>= f) (f v) := by
  intro s hs hb
  exact Routine.value_bind_ok rules f (h s hs hb)

/-- What comes next takes no token. -/
theorem Takes.trans_here {x y z : Parse α} (h : Takes b rest us ds x y)
    (h' : Takes b rest [] es y z) : Takes b rest us (ds ++ es) x z := by
  have h'' := h.trans h'
  rwa [List.append_nil] at h''

/-- What comes next takes no token and notes no complaint. -/
theorem Takes.stop {x y z : Parse α} (h : Takes b rest us ds x y) (h' : Takes b rest [] [] y z) :
    Takes b rest us ds x z := by
  have h'' := h.trans_here h'
  rwa [List.append_nil] at h''

/-- A goal that is called takes what its production takes. -/
theorem takes_call {g : Goal} {y : Parse g.Result} (h : Takes b rest us ds (rules g) y) :
    Takes b rest us ds (Routine.call g) y := by
  intro s hs hb
  rw [Routine.value_call, h s hs hb]

/-- So does a goal that is become. -/
theorem takes_become {g : Goal} {y : Parse g.Result} (h : Takes b rest us ds (rules g) y) :
    Takes b rest us ds (Routine.become g) y := by
  intro s hs hb
  rw [Routine.value_become, h s hs hb]

/-! ## The rules for single steps -/

/-- A first step that takes no token and calls no goal. -/
theorem takes_noted {x : Parse α} {f : α → Parse β} {v : α} {y : Parse β}
    (hx : ∀ s : State, s.rest = us ++ rest → s.inBody = b → x s = .done (.ok v, s.beyond [] ds))
    (h : Takes b rest us es (f v) y) : Takes b rest us (ds ++ es) (x >>= f) y := by
  intro s hs hb
  unfold value
  rw [Routine.bind_apply_of_ok (hx s hs hb) f]
  have hrest : (s.beyond [] ds).rest = us ++ rest := hs
  have hf := h _ hrest hb
  rw [State.beyond_beyond] at hf
  exact hf

/-- A first step that only looks at the state. -/
theorem takes_look {x : Parse α} {f : α → Parse β} {v : α} {y : Parse β}
    (hx : ∀ s : State, s.rest = us ++ rest → x s = .done (.ok v, s))
    (h : Takes b rest us ds (f v) y) : Takes b rest us ds (x >>= f) y := by
  intro s hs hb
  unfold value
  rw [Routine.bind_apply_of_ok (hx s hs) f]
  exact h s hs hb

variable {t : Token} {y : Parse β}

/-- A first step that takes a token and calls no goal. -/
theorem takes_taken {x : Parse α} {f : α → Parse β} {v : α}
    (hx : ∀ (s : State) (rest : List Token), s.rest = t :: rest → x s = .done (.ok v, s.advance))
    (h : Takes b rest us ds (f v) y) : Takes b rest (t :: us) ds (x >>= f) y := by
  intro s hs hb
  unfold value
  rw [Routine.bind_apply_of_ok (hx s _ hs) f, State.advance_eq_beyond hs]
  have hrest : (s.beyond [t] []).rest = us ++ rest := by simp [State.beyond, hs]
  have hf := h _ hrest hb
  rw [State.beyond_beyond] at hf
  exact hf

/-- Taking a token leads past it. -/
theorem takes_advance {f : Unit → Parse β} (h : Takes b rest us ds (f ()) y) :
    Takes b rest (t :: us) ds (Parse.advance >>= f) y :=
  takes_taken (fun _ _ _ => rfl) h

/-- Where a token of the expected kind stands, it is taken. -/
theorem takes_expect {f : Token → Parse β} {kind : Kind} {what : Expected} (hkind : t.kind = kind)
    (h : Takes b rest us ds (f t) y) :
    Takes b rest (t :: us) ds (Parse.expect kind what >>= f) y :=
  takes_taken (fun _ _ hs => Parse.expect_taken hs hkind) h

/-- Where a token of an accepted kind stands, it is taken. -/
theorem takes_accept {f : Option Token → Parse β} {kinds : List Kind} (hkind : t.kind ∈ kinds)
    (h : Takes b rest us ds (f (some t)) y) :
    Takes b rest (t :: us) ds (Parse.accept? kinds >>= f) y :=
  takes_taken (fun _ _ hs => Parse.accept_taken hs hkind) h

/-- Where none stands, nothing is taken. -/
theorem takes_accept_none {f : Option Token → Parse β} {kinds : List Kind}
    (hclear : Clear kinds (us ++ rest)) (h : Takes b rest us ds (f none) y) :
    Takes b rest us ds (Parse.accept? kinds >>= f) y :=
  takes_look (fun s hs => Parse.accept_none (by rwa [hs])) h

/-- A part that looks at the next token goes on with it. -/
theorem takes_peek {f : Token → Parse β} (h : Takes b rest (t :: us) ds (f t) y) :
    Takes b rest (t :: us) ds (Parse.peek >>= f) y := by
  refine takes_look (fun s hs => ?_) h
  simp [Parse.peek, Routine.step, State.peek, hs]

/-- A part that looks at the kind of the next token goes on with that. -/
theorem takes_peekKind {f : Kind → Parse β} (hpeek : us ++ rest = t :: vs)
    (h : Takes b rest us ds (f t.kind) y) : Takes b rest us ds (Parse.peekKind >>= f) y := by
  refine takes_look (fun s hs => ?_) h
  simp [Parse.peekKind, Routine.step, State.peek, hs, hpeek]

/-- A complaint that is reported is the first of those noted. -/
theorem takes_report {f : Unit → Parse β} {complaint : Complaint}
    (h : Takes b rest us ds (f ()) y) :
    Takes b rest us ([.atToken t complaint] ++ ds) (Parse.report t complaint >>= f) y := by
  refine takes_noted (fun s _ _ => ?_) h
  rw [← State.report_eq_beyond]
  rfl

/-- A list entry beyond the limit is complained about, and no other one is. -/
theorem takes_reportBeyond {f : Unit → Parse β} {before : Nat} {complaint : Complaint}
    (h : Takes b rest (t :: us) ds (f ()) y) :
    Takes b rest (t :: us) (overLimit before t complaint ++ ds)
      (Parse.reportBeyond before complaint >>= f) y := by
  refine takes_noted (fun s hs _ => ?_) h
  have hpeek : s.peek = t := by simp [State.peek, hs]
  unfold overLimit Parse.reportBeyond Routine.modify
  dsimp only
  rw [hpeek]
  split
  · rw [← State.report_eq_beyond]
  · rw [State.beyond_nil]

/-- A `return` is complained about outside function bodies only. -/
theorem takes_reportOutside {f : Unit → Parse β} (h : Takes b rest us ds (f ()) y) :
    Takes b rest us (strayReturn t b ++ ds)
      (Parse.reportOutside t .returnOutsideFunction >>= f) y := by
  refine takes_noted (fun s _ hb => ?_) h
  subst hb
  unfold strayReturn Parse.reportOutside Routine.modify State.inBody
  by_cases hdepth : s.depth = 0
  · simp [hdepth, State.report_eq_beyond]
  · simp [hdepth]

/-- In a function body a part takes what it takes in any, and afterwards the parser is outside again. -/
theorem takes_inFunction {x : Parse α} {v : α} (h : Takes true rest us ds x (pure v)) :
    Takes b rest us ds (Parse.inFunction x) (pure v) := by
  intro s hs _
  show value rules (x.ensuring _) { s with depth := s.depth + 1 } = _
  rw [Routine.value_ensuring, h { s with depth := s.depth + 1 } hs (by simp [State.inBody])]
  simp [State.beyond]

end Judgement

/-! ## What may follow a phrase -/

/-- The kinds of tokens by which an operand of a level would go on: operators that bind tighter than
those of the level, and the parenthesis that opens an argument list. -/
def Level.tighter : Level → List Kind
  | multiplication => [.leftParen]
  | addition => multiplication.operators ++ [.leftParen]
  | comparison => addition.operators ++ (multiplication.operators ++ [.leftParen])
  | equality => comparison.operators ++ (addition.operators ++ (multiplication.operators ++
      [.leftParen]))
  | and => equality.operators ++ (comparison.operators ++ (addition.operators ++
      (multiplication.operators ++ [.leftParen])))
  | or => and.operators ++ (equality.operators ++ (comparison.operators ++ (addition.operators ++
      (multiplication.operators ++ [.leftParen]))))

/-- An operand goes on by the operators of the next level, or as the operands of that level do. -/
theorem Level.tighter_of_next {level next : Level} (h : level.next? = some next) :
    level.tighter = next.operators ++ next.tighter := by
  cases level <;> cases h <;> rfl

/-- An operand of the last level goes on by calls only. -/
theorem Level.tighter_of_last {level : Level} (h : level.next? = none) :
    level.tighter = [.leftParen] := by
  cases level <;> first | rfl | cases h

/-- No operator belongs to a level and to a tighter one. -/
theorem Level.not_mem_tighter (level : Level) : ∀ kind ∈ level.operators, kind ∉ level.tighter := by
  cases level <;> decide

/-- The kinds of tokens by which an expression would go on. -/
def continuing : List Kind :=
  .assign :: (Level.or.operators ++ Level.or.tighter)

/-- The kinds of tokens that can follow an expression. -/
def closing : List Kind :=
  [.semicolon, .rightParen, .comma]

/-- What can follow an expression cannot begin one. -/
theorem not_mem_expressionKinds : ∀ kind ∈ closing, kind ∉ expressionKinds := by
  decide

/-- Before such a token an expression does not go on. -/
theorem clear_of_closing {t : Token} (h : t.kind ∈ closing) (us : List Token) :
    Clear continuing (t :: us) := by
  have hdisjoint : ∀ kind ∈ closing, kind ∉ continuing := by decide
  exact clear_cons.2 (hdisjoint _ h)

/-! ## What reads a phrase -/

/-- An argument list that is not empty. -/
def someArguments : Parse (List Expr) := do
  let first ← Routine.call Goal.expression
  Routine.call (Goal.arguments [first])

/-- What follows a parameter, after which all parameters so far have been read. -/
def parameterTail (read : List Token) : Parse (List Token) := do
  match ← Parse.accept? [.comma] with
  | some _ => Routine.become (Goal.parameters read)
  | none => pure read.reverse

/-- The part of the parser that reads the phrases of a symbol reads this phrase, unless what follows
could be taken for a part of it. -/
def Understood : (x : Symbol) → List Token → x.Tree → List Diagnostic → Prop
  | .declarations b => fun us r ds => ∀ rest, Clear [.kwElse] rest →
      Takes b rest us ds (block []) (block r.reverse) ∧
        Takes b rest us ds (program []) (program r.reverse)
  | .declaration b => fun us r ds => ∀ rest, Clear [.kwElse] rest →
      Takes b rest us ds declarationBody (pure r)
  | .variable => fun us r ds => ∀ b rest, Takes b rest us ds variableRest (pure r)
  | .parameterList => fun us r ds => ∀ b rest, Begins [.rightParen] rest →
      Takes b rest us ds parameterList (pure r)
  | .parameters => fun us r ds => ∀ b rest,
      Takes b rest us ds (parameters []) (parameterTail r.reverse)
  | .statement b hanging => fun us r ds => ∀ rest, (hanging = true → Clear [.kwElse] rest) →
      Takes b rest us ds statement (pure r)
  | .initializer => fun us r ds => ∀ b rest, Takes b rest us ds forInit (pure r)
  | .clause => fun us r ds => ∀ b rest, ∀ kind ∈ closing, Begins [kind] rest →
      Takes b rest us ds (clause kind) (pure r)
  | .expression => fun us r ds => ∀ b rest, Clear continuing rest →
      Takes b rest us ds expression (pure r)
  | .operation level => fun us r ds => ∀ b rest, Clear level.tighter rest →
      Takes b rest us ds (operation level) (operatorTail level r)
  | .operand level => fun us r ds => ∀ b rest, Clear level.tighter rest →
      Takes b rest us ds (operand level) (pure r)
  | .unary => fun us r ds => ∀ b rest, Clear [.leftParen] rest →
      Takes b rest us ds unary (pure r)
  | .call => fun us r ds => ∀ b rest, Takes b rest us ds unary (calls r)
  | .argumentList => fun us r ds => ∀ b rest, Begins [.rightParen] rest →
      Takes b rest us ds argumentList (pure r)
  | .arguments => fun us r ds => ∀ b rest, Clear continuing rest →
      Takes b rest us ds someArguments (arguments r.reverse)
  | .primary => fun us r ds => ∀ b rest, Takes b rest us ds primary (pure r)

variable {us vs ws : List Token} {ds es fs : List Diagnostic}

/-! ## Expressions -/

/-- An expression before a token that can follow it. -/
theorem takes_expression {e : Expr} {ending : Token} (he : Understood .expression us e ds)
    (hending : ending.kind ∈ closing) (b : Bool) (rest : List Token) :
    Takes b (ending :: rest) us ds (Routine.call Goal.expression) (pure e) :=
  takes_call (he b _ (clear_of_closing hending rest))

/-- A constant is read, whatever follows it. -/
theorem understood_constant {t : Token} {c : Constant} (h : t.constant? = some c) :
    Understood .primary [t] (.literal c) [] := by
  intro b rest
  unfold primary
  refine takes_peek ?_
  unfold Token.constant? at h
  split at h
  case h_1 _ hkind | h_2 _ hkind | h_3 _ hkind =>
    cases h
    rw [hkind]
    exact takes_advance (Takes.refl _)
  case h_4 _ hkind | h_5 _ hkind =>
    obtain ⟨value, hvalue, rfl⟩ := Option.map_eq_some_iff.1 h
    rw [hkind, hvalue]
    refine takes_advance ?_
    cases value <;> exact Takes.refl _
  case h_6 => cases h

/-- A name is read, whatever follows it. -/
theorem understood_name {t : Token} (h : t.kind = .identifier) :
    Understood .primary [t] (.variable t) [] := by
  intro b rest
  unfold primary
  refine takes_peek ?_
  rw [h]
  exact takes_advance (Takes.refl _)

/-- An expression in parentheses is read: the closing one ends it. -/
theorem understood_grouping {opening ending : Token} {e : Expr} (hopening : opening.kind = .leftParen)
    (he : Understood .expression us e ds) (hending : ending.kind = .rightParen) :
    Understood .primary (opening :: us ++ [ending]) (.grouping e) ds := by
  intro b rest
  unfold primary
  refine takes_peek ?_
  rw [hopening]
  refine takes_advance ?_
  exact (takes_expression he (by simp [hending, closing]) b rest).seq_clean
    (takes_expect hending (Takes.refl _))

/-- A phrase that begins in one of some ways does not begin in one of others. -/
theorem Begins.clear {kinds kinds' : List Kind} (h : Begins kinds us)
    (hdisjoint : ∀ kind ∈ kinds, kind ∉ kinds') (rest : List Token) : Clear kinds' (us ++ rest) := by
  obtain ⟨t, us, rfl, ht⟩ := h
  exact clear_cons.2 (hdisjoint _ ht)

/-- A primary expression is read where the parser reads calls; no operator precedes it. -/
theorem understood_noCall {e : Expr} (hbegins : Begins primaryKinds us)
    (he : Understood .primary us e ds) : Understood .call us e ds := by
  intro b rest
  unfold unary
  refine takes_accept_none (hbegins.clear (by decide) rest) ?_
  exact ((he b rest).bind _).stop (takes_become (Takes.refl _))

/-- A further argument list is read by the loop that the callee has come to. -/
theorem understood_call {opening ending : Token} {callee : Expr} {args : List Expr}
    (hcallee : Understood .call us callee ds) (hopening : opening.kind = .leftParen)
    (hargs : Understood .argumentList vs args es) (hending : ending.kind = .rightParen) :
    Understood .call (us ++ opening :: vs ++ [ending]) (.call callee ending args) (ds ++ es) := by
  intro b rest
  rw [List.append_assoc]
  refine (hcallee b _).trans ?_
  unfold calls
  refine takes_accept (by simp [hopening]) ?_
  have hbegins : Begins [.rightParen] ([ending] ++ rest) := ⟨ending, rest, rfl, by simp [hending]⟩
  refine (hargs b _ hbegins).seq_clean (takes_expect hending ?_)
  exact takes_become (Takes.refl _)

/-- An operator before a unary expression is read, and then that expression. -/
theorem understood_unary {operator : Token} {e : Expr} (hoperator : operator.kind ∈ [.not, .minus])
    (he : Understood .unary us e ds) : Understood .unary (operator :: us) (.unary operator e) ds := by
  intro b rest hclear
  refine takes_accept hoperator ?_
  have hcall : Takes b rest us ds (Routine.call Goal.unary) (pure e) := takes_call (he b rest hclear)
  exact hcall.bind _

/-- A call is read where the parser reads unary expressions, if no argument list follows. -/
theorem understood_noUnary {e : Expr} (he : Understood .call us e ds) : Understood .unary us e ds := by
  intro b rest hclear
  exact (he b rest).stop (takes_accept_none hclear (Takes.refl _))

/-- An argument list that is not empty is read: it does not begin with the closing parenthesis. -/
theorem understood_someArguments {args : List Expr} (hbegins : Begins expressionKinds us)
    (h : Understood .arguments us args ds) : Understood .argumentList us args ds := by
  intro b rest hrest
  obtain ⟨t, us, rfl, ht⟩ := hbegins
  obtain ⟨ending, rest, rfl, hending⟩ := hrest
  rw [List.mem_singleton] at hending
  unfold argumentList
  refine takes_peekKind rfl ?_
  have hne : t.kind ≠ .rightParen := fun heq => not_mem_expressionKinds _ (by decide) (heq ▸ ht)
  rw [if_neg hne]
  refine (h b _ (clear_of_closing (by simp [hending, closing]) rest)).stop ?_
  have hcomma : Clear [.comma] (ending :: rest) := by simp [hending]
  have hdone : Takes b (ending :: rest) [] [] (arguments args.reverse) (pure args.reverse.reverse) :=
    takes_accept_none hcomma (Takes.refl _)
  rwa [List.reverse_reverse] at hdone

/-- The first argument is read up to where the list may go on. -/
theorem understood_firstArgument {e : Expr} (he : Understood .expression us e ds) :
    Understood .arguments us [e] ds := by
  intro b rest hclear
  have hcall : Takes b rest us ds (Routine.call Goal.expression) (pure e) :=
    takes_call (he b rest hclear)
  exact (hcall.bind _).stop (takes_call (Takes.refl _))

/-- A further argument is read, with a complaint about its first token if there are too many. -/
theorem understood_moreArguments {comma t : Token} {args : List Expr} {e : Expr}
    (h : Understood .arguments us args ds) (hcomma : comma.kind = .comma)
    (he : Understood .expression (t :: vs) e es) :
    Understood .arguments (us ++ comma :: t :: vs) (args ++ [e])
      (ds ++ overLimit args.length t .tooManyArguments ++ es) := by
  intro b rest hclear
  rw [List.append_assoc, List.reverse_append]
  refine (h b _ (clear_of_closing (by simp [hcomma, closing]) _)).trans ?_
  refine takes_accept (by simp [hcomma]) ?_
  rw [← List.length_reverse]
  refine takes_reportBeyond ?_
  have hcall : Takes b rest (t :: vs) es (Routine.call Goal.expression) (pure e) :=
    takes_call (he b rest hclear)
  exact (hcall.bind _).stop (takes_become (Takes.refl _))

/-- A further operation is read by the loop that its left side has come to. The left side ends there,
because its operator binds no tighter. -/
theorem understood_moreOperations {level : Level} {operator : Token} {left right : Expr}
    (hleft : Understood (.operation level) us left ds) (hoperator : operator.kind ∈ level.operators)
    (hright : Understood (.operand level) vs right es) :
    Understood (.operation level) (us ++ operator :: vs) (level.join left operator right)
      (ds ++ es) := by
  intro b rest hclear
  refine (hleft b _ (clear_cons.2 (level.not_mem_tighter _ hoperator))).trans ?_
  refine takes_accept hoperator ?_
  exact ((hright b rest hclear).bind _).stop (takes_become (Takes.refl _))

/-- An operand is read up to where operations of its level may go on. -/
theorem understood_noOperation {level : Level} {e : Expr} (he : Understood (.operand level) us e ds) :
    Understood (.operation level) us e ds := by
  intro b rest hclear
  exact ((he b rest hclear).bind _).stop (takes_become (Takes.refl _))

/-- The operations of a level end where neither an operator of the level nor a tighter one follows. -/
theorem takes_operation {level : Level} {b : Bool} {rest : List Token} {e : Expr}
    (he : Understood (.operation level) us e ds) (hclear : Clear (level.operators ++ level.tighter) rest) :
    Takes b rest us ds (Routine.call (Goal.operation level)) (pure e) := by
  rw [clear_append] at hclear
  refine takes_call ?_
  exact (he b rest hclear.2).stop (takes_accept_none hclear.1 (Takes.refl _))

/-- An operand that is an operation of the next level is read, if neither level goes on behind it. -/
theorem understood_tighterOperand {level tighter : Level} {e : Expr}
    (hnext : level.next? = some tighter) (he : Understood (.operation tighter) us e ds) :
    Understood (.operand level) us e ds := by
  intro b rest hclear
  rw [Level.tighter_of_next hnext] at hclear
  unfold operand
  rw [hnext]
  exact takes_operation he hclear

/-- An operand of the last level is read as a unary expression. -/
theorem understood_unaryOperand {level : Level} {e : Expr} (hnext : level.next? = none)
    (he : Understood .unary us e ds) : Understood (.operand level) us e ds := by
  intro b rest hclear
  rw [Level.tighter_of_last hnext] at hclear
  unfold operand
  rw [hnext]
  exact takes_call (he b rest hclear)

/-- An operation is read as an expression, if no assignment follows. -/
theorem understood_noAssignment {e : Expr} (he : Understood (.operation .or) us e ds) :
    Understood .expression us e ds := by
  intro b rest hclear
  rw [continuing, ← List.singleton_append, clear_append] at hclear
  refine ((takes_operation he hclear.2).bind _).stop ?_
  exact takes_accept_none hclear.1 (Takes.refl _)

/-- An assignment is read, with a complaint unless the target is a bare name. -/
theorem understood_assignment {equals : Token} {target value : Expr}
    (htarget : Understood (.operation .or) us target ds) (hequals : equals.kind = .assign)
    (hvalue : Understood .expression vs value es) :
    Understood .expression (us ++ equals :: vs) (assignment target value)
      (ds ++ es ++ badTarget equals target) := by
  intro b rest hclear
  have hassign : Clear (Level.or.operators ++ Level.or.tighter) (equals :: vs ++ rest) := by
    rw [List.cons_append, clear_cons, hequals]
    decide
  have hcall : Takes b rest vs es (Routine.call Goal.expression) (pure value) :=
    takes_call (hvalue b rest hclear)
  rw [List.append_assoc]
  refine (takes_operation htarget hassign).seq (takes_accept (by simp [hequals]) ?_)
  refine (hcall.bind _).trans_here ?_
  cases target with
  | «variable» name => exact Takes.refl _
  | _ => exact takes_report (Takes.refl _)

/-- An expression is read where one may be left out: it does not begin with the token that would end the
clause. -/
theorem understood_someClause {e : Expr} (hbegins : Begins expressionKinds us)
    (he : Understood .expression us e ds) : Understood .clause us (some e) ds := by
  intro b rest kind hkind hrest
  obtain ⟨t, us, rfl, ht⟩ := hbegins
  obtain ⟨ending, rest, rfl, hending⟩ := hrest
  rw [List.mem_singleton] at hending
  unfold clause
  refine takes_peekKind rfl ?_
  have hne : t.kind ≠ kind := fun heq => not_mem_expressionKinds kind hkind (heq ▸ ht)
  rw [if_neg hne]
  exact (takes_expression he (by rwa [hending]) b rest).bind _

/-- Where the clause is left out, its end is seen at once. -/
theorem understood_noClause : Understood .clause [] none [] := by
  intro b rest kind hkind hrest
  obtain ⟨ending, rest, rfl, hending⟩ := hrest
  rw [List.mem_singleton] at hending
  unfold clause
  refine takes_peekKind rfl ?_
  rw [if_pos hending]
  exact Takes.refl _

/-- An empty argument list is seen at its closing parenthesis. -/
theorem understood_noArguments : Understood .argumentList [] [] [] := by
  intro b rest hrest
  obtain ⟨ending, rest, rfl, hending⟩ := hrest
  rw [List.mem_singleton] at hending
  unfold argumentList
  refine takes_peekKind rfl ?_
  rw [if_pos hending]
  exact Takes.refl _

/-! ## Statements -/

/-- A variable without a value is read up to its semicolon. -/
theorem understood_bareVariable {name ending : Token} (hname : name.kind = .identifier)
    (hending : ending.kind = .semicolon) :
    Understood .variable [name, ending] (.var name none) [] := by
  intro b rest
  refine takes_expect hname ?_
  have hinit : Takes b ([ending] ++ rest) [] [] initialValue (pure none) :=
    takes_accept_none (by simp [hending]) (Takes.refl _)
  exact hinit.seq_clean (takes_expect hending (Takes.refl _))

/-- So is a variable with a value. -/
theorem understood_initializedVariable {name equals ending : Token} {e : Expr}
    (hname : name.kind = .identifier) (hequals : equals.kind = .assign)
    (he : Understood .expression us e ds) (hending : ending.kind = .semicolon) :
    Understood .variable (name :: equals :: us ++ [ending]) (.var name (some e)) ds := by
  intro b rest
  refine takes_expect hname ?_
  have hinit : Takes b ([ending] ++ rest) (equals :: us) ds initialValue (pure (some e)) :=
    takes_accept (by simp [hequals])
      ((takes_expression he (by simp [hending, closing]) b rest).bind _)
  exact hinit.seq_clean (takes_expect hending (Takes.refl _))

/-- An expression and a semicolon are read as a statement. -/
theorem takes_expressionStatement {e : Expr} {ending : Token} (he : Understood .expression us e ds)
    (hending : ending.kind = .semicolon) (b : Bool) (rest : List Token) :
    Takes b rest (us ++ [ending]) ds expressionStatement (pure (.expression e)) :=
  (takes_expression he (by simp [hending, closing]) b rest).seq_clean
    (takes_expect hending (Takes.refl _))

/-- Declarations and a closing brace are read as the rest of a block. The brace is no `else`, and it
begins no declaration. -/
theorem takes_blockRest {b : Bool} {ending : Token} {ss : List Stmt}
    (hss : Understood (.declarations b) us ss ds) (hending : ending.kind = .rightBrace)
    (rest : List Token) : Takes b rest (us ++ [ending]) ds blockRest (pure ss) := by
  have hblock : Takes b ([ending] ++ rest) us ds (Routine.call (Goal.block [])) (pure ss) := by
    refine takes_call ((hss _ (by simp [hending])).1.stop ?_)
    refine takes_peekKind rfl ?_
    rw [if_pos (.inl hending), List.reverse_reverse]
    exact Takes.refl _
  exact hblock.seq_clean (takes_expect hending (Takes.refl _))

/-- An expression statement is read: no keyword and no brace begins it, so it is taken for none of the
others. -/
theorem understood_expressionStatement {b : Bool} {e : Expr} {ending : Token}
    (hbegins : Begins expressionKinds us) (he : Understood .expression us e ds)
    (hending : ending.kind = .semicolon) :
    Understood (.statement b false) (us ++ [ending]) (.expression e) ds := by
  intro rest _
  have h := takes_expressionStatement he hending b rest
  obtain ⟨t, us, rfl, ht⟩ := hbegins
  refine takes_peek ?_
  have hkinds : ∀ kind ∈ expressionKinds,
      kind ∉ [.kwPrint, .kwIf, .kwWhile, .kwFor, .kwReturn, .leftBrace] := by decide
  have hkind := hkinds _ ht
  split <;> simp_all

/-- A `print` statement is read by its keyword. -/
theorem understood_print {b : Bool} {keyword ending : Token} {e : Expr}
    (hkeyword : keyword.kind = .kwPrint) (he : Understood .expression us e ds)
    (hending : ending.kind = .semicolon) :
    Understood (.statement b false) (keyword :: us ++ [ending]) (.print keyword e) ds := by
  intro rest _
  refine takes_peek ?_
  rw [hkeyword]
  refine takes_advance ?_
  exact (takes_expression he (by simp [hending, closing]) b rest).seq_clean
    (takes_expect hending (Takes.refl _))

/-- A `return` is read by its keyword, with a complaint outside function bodies. -/
theorem understood_return {b : Bool} {keyword ending : Token} {e : Option Expr}
    (hkeyword : keyword.kind = .kwReturn) (he : Understood .clause us e ds)
    (hending : ending.kind = .semicolon) :
    Understood (.statement b false) (keyword :: us ++ [ending]) (.return keyword e)
      (strayReturn keyword b ++ ds) := by
  intro rest _
  refine takes_peek ?_
  rw [hkeyword]
  refine takes_advance (takes_reportOutside ?_)
  have hbegins : Begins [.semicolon] ([ending] ++ rest) := ⟨ending, rest, rfl, by simp [hending]⟩
  exact (he b _ .semicolon (by decide) hbegins).seq_clean (takes_expect hending (Takes.refl _))

/-- A block is read by its opening brace. -/
theorem understood_block {b : Bool} {opening ending : Token} {ss : List Stmt}
    (hopening : opening.kind = .leftBrace) (hss : Understood (.declarations b) us ss ds)
    (hending : ending.kind = .rightBrace) :
    Understood (.statement b false) (opening :: us ++ [ending]) (.block ss) ds := by
  intro rest _
  refine takes_peek ?_
  rw [hopening]
  refine takes_advance ?_
  exact (takes_blockRest hss hending rest).bind _

/-- A `while` loop is read by its keyword, and ends where its body does. -/
theorem understood_while {b hanging : Bool} {keyword opening ending : Token} {e : Expr} {d : Stmt}
    (hkeyword : keyword.kind = .kwWhile) (hopening : opening.kind = .leftParen)
    (he : Understood .expression us e ds) (hending : ending.kind = .rightParen)
    (hd : Understood (.statement b hanging) vs d es) :
    Understood (.statement b hanging) (keyword :: opening :: us ++ ending :: vs) (.while e d)
      (ds ++ es) := by
  intro rest hclear
  refine takes_peek ?_
  rw [hkeyword]
  refine takes_advance (takes_expect hopening ?_)
  refine (takes_expression he (by simp [hending, closing]) b _).seq (takes_expect hending ?_)
  have hbody : Takes b rest vs es (Routine.call Goal.statement) (pure d) := takes_call (hd rest hclear)
  exact hbody.bind _

/-- A conditional without an `else` is read by its keyword. None may follow, because the parser would
take it. -/
theorem understood_ifThen {b hanging : Bool} {keyword opening ending : Token} {e : Expr} {d : Stmt}
    (hkeyword : keyword.kind = .kwIf) (hopening : opening.kind = .leftParen)
    (he : Understood .expression us e ds) (hending : ending.kind = .rightParen)
    (hd : Understood (.statement b hanging) vs d es) :
    Understood (.statement b true) (keyword :: opening :: us ++ ending :: vs) (.ifThen e d)
      (ds ++ es) := by
  intro rest hclear
  refine takes_peek ?_
  rw [hkeyword]
  refine takes_advance (takes_expect hopening ?_)
  refine (takes_expression he (by simp [hending, closing]) b _).seq (takes_expect hending ?_)
  have hconsequent : Takes b rest vs es (Routine.call Goal.statement) (pure d) :=
    takes_call (hd rest fun _ => hclear rfl)
  exact (hconsequent.bind _).stop (takes_accept_none (hclear rfl) (Takes.refl _))

/-- A conditional with an `else` is read. What stands before the `else` is not hanging, so that the
parser does not take the `else` for a part of it. -/
theorem understood_ifElse {b hanging : Bool} {keyword opening ending other : Token} {e : Expr}
    {d d' : Stmt} (hkeyword : keyword.kind = .kwIf) (hopening : opening.kind = .leftParen)
    (he : Understood .expression us e ds) (hending : ending.kind = .rightParen)
    (hd : Understood (.statement b false) vs d es) (hother : other.kind = .kwElse)
    (hd' : Understood (.statement b hanging) ws d' fs) :
    Understood (.statement b hanging) (keyword :: opening :: us ++ ending :: vs ++ other :: ws)
      (.ifElse e d d') (ds ++ es ++ fs) := by
  intro rest hclear
  rw [List.append_assoc, List.append_assoc]
  refine takes_peek ?_
  rw [hkeyword]
  refine takes_advance (takes_expect hopening ?_)
  refine (takes_expression he (by simp [hending, closing]) b _).seq (takes_expect hending ?_)
  have hconsequent : Takes b (other :: ws ++ rest) vs es (Routine.call Goal.statement) (pure d) :=
    takes_call (hd _ nofun)
  have halternative : Takes b rest ws fs (Routine.call Goal.statement) (pure d') :=
    takes_call (hd' rest hclear)
  exact hconsequent.seq (takes_accept (by simp [hother]) (halternative.bind _))

/-- A missing initializer is seen at the semicolon. -/
theorem understood_noInitializer {ending : Token} (hending : ending.kind = .semicolon) :
    Understood .initializer [ending] none [] := by
  intro b rest
  refine takes_accept (by simp [hending]) ?_
  dsimp only
  rw [if_pos hending]
  exact Takes.refl _

/-- A variable is read as an initializer by its keyword. -/
theorem understood_varInitializer {keyword : Token} {d : Stmt} (hkeyword : keyword.kind = .kwVar)
    (hd : Understood .variable us d ds) : Understood .initializer (keyword :: us) (some d) ds := by
  intro b rest
  refine takes_accept (by simp [hkeyword]) ?_
  dsimp only
  rw [if_neg (by simp [hkeyword])]
  exact (hd b rest).bind _

/-- So is an expression, which begins with neither. -/
theorem understood_expressionInitializer {e : Expr} {ending : Token}
    (hbegins : Begins expressionKinds us) (he : Understood .expression us e ds)
    (hending : ending.kind = .semicolon) :
    Understood .initializer (us ++ [ending]) (some (.expression e)) ds := by
  intro b rest
  refine takes_accept_none ?_ ?_
  · rw [List.append_assoc]
    exact hbegins.clear (by decide) _
  · exact (takes_expressionStatement he hending b rest).bind _

/-- A `for` loop is read by its keyword, clause by clause, and stands for the loop that it is lowered to. -/
theorem understood_for {b hanging : Bool} {keyword opening middle ending : Token}
    {xs : List Token} {init : Option Stmt} {condition increment : Option Expr} {d : Stmt}
    {gs : List Diagnostic} (hkeyword : keyword.kind = .kwFor) (hopening : opening.kind = .leftParen)
    (hinit : Understood .initializer us init ds) (hcondition : Understood .clause vs condition es)
    (hmiddle : middle.kind = .semicolon) (hincrement : Understood .clause ws increment fs)
    (hending : ending.kind = .rightParen) (hd : Understood (.statement b hanging) xs d gs) :
    Understood (.statement b hanging)
      (keyword :: opening :: us ++ vs ++ middle :: ws ++ ending :: xs)
      (forLoop init (condition.getD (.literal (.boolean true))) increment d)
      (ds ++ es ++ fs ++ gs) := by
  intro rest hclear
  have hsemicolon : Begins [.semicolon] (middle :: (ws ++ ending :: xs) ++ rest) :=
    ⟨middle, _, rfl, by simp [hmiddle]⟩
  have hparen : Begins [.rightParen] (ending :: xs ++ rest) := ⟨ending, _, rfl, by simp [hending]⟩
  have hbody : Takes b rest xs gs (Routine.call Goal.statement) (pure d) := takes_call (hd rest hclear)
  rw [show keyword :: opening :: us ++ vs ++ middle :: ws ++ ending :: xs
      = keyword :: opening :: (us ++ (vs ++ middle :: (ws ++ ending :: xs))) by simp,
    show ds ++ es ++ fs ++ gs = ds ++ (es ++ (fs ++ gs)) by simp]
  refine takes_peek ?_
  rw [hkeyword]
  refine takes_advance (takes_expect hopening ?_)
  refine (hinit b _).seq ?_
  refine (hcondition b _ .semicolon (by decide) hsemicolon).seq (takes_expect hmiddle ?_)
  refine (hincrement b _ .rightParen (by decide) hparen).seq (takes_expect hending ?_)
  exact hbody.bind _

/-! ## Declarations -/

/-- An empty parameter list is seen at its closing parenthesis. -/
theorem understood_noParameters : Understood .parameterList [] [] [] := by
  intro b rest hrest
  obtain ⟨ending, rest, rfl, hending⟩ := hrest
  rw [List.mem_singleton] at hending
  refine takes_peekKind rfl ?_
  rw [if_pos hending]
  exact Takes.refl _

/-- A parameter list that is not empty is read: it begins with a name. -/
theorem understood_someParameters {ps : List Token} (hbegins : Begins [.identifier] us)
    (h : Understood .parameters us ps ds) : Understood .parameterList us ps ds := by
  intro b rest hrest
  obtain ⟨t, us, rfl, ht⟩ := hbegins
  obtain ⟨ending, rest, rfl, hending⟩ := hrest
  rw [List.mem_singleton] at ht hending
  refine takes_peekKind rfl ?_
  rw [if_neg (by simp [ht])]
  refine takes_call ((h b _).stop ?_)
  have hdone : Takes b (ending :: rest) [] [] (parameterTail ps.reverse) (pure ps.reverse.reverse) :=
    takes_accept_none (by simp [hending]) (Takes.refl _)
  rwa [List.reverse_reverse] at hdone

/-- One parameter, after those read so far. -/
theorem takes_parameter {read : List Token} {name : Token} (hname : name.kind = .identifier)
    (b : Bool) (rest : List Token) :
    Takes b rest [name] (overLimit read.length name .tooManyParameters) (parameters read)
      (parameterTail (name :: read)) := by
  have h : Takes b rest [name] (overLimit read.length name .tooManyParameters ++ []) (parameters read)
      (parameterTail (name :: read)) :=
    takes_reportBeyond (takes_expect hname (Takes.refl _))
  rwa [List.append_nil] at h

/-- The first parameter is read up to where the list may go on. -/
theorem understood_firstParameter {name : Token} (hname : name.kind = .identifier) :
    Understood .parameters [name] [name] [] :=
  fun b rest => takes_parameter hname b rest

/-- A further parameter is read, with a complaint about it if there are too many. -/
theorem understood_moreParameters {comma name : Token} {ps : List Token}
    (h : Understood .parameters us ps ds) (hcomma : comma.kind = .comma)
    (hname : name.kind = .identifier) :
    Understood .parameters (us ++ [comma, name]) (ps ++ [name])
      (ds ++ overLimit ps.length name .tooManyParameters) := by
  intro b rest
  rw [List.reverse_append, ← List.length_reverse]
  refine (h b _).trans (takes_accept (by simp [hcomma]) ?_)
  exact takes_become (takes_parameter hname b rest)

/-- The declaration of a function is read by its keyword, its body inside a function. -/
theorem understood_function {b : Bool} {keyword name opening ending brace last : Token}
    {params : List Token} {body : List Stmt} (hkeyword : keyword.kind = .kwFun)
    (hname : name.kind = .identifier) (hopening : opening.kind = .leftParen)
    (hparams : Understood .parameterList us params ds) (hending : ending.kind = .rightParen)
    (hbrace : brace.kind = .leftBrace) (hbody : Understood (.declarations true) vs body es)
    (hlast : last.kind = .rightBrace) :
    Understood (.declaration b) (keyword :: name :: opening :: us ++ ending :: brace :: vs ++ [last])
      (.function name params body) (ds ++ es) := by
  intro rest _
  have hparen : Begins [.rightParen] (ending :: brace :: (vs ++ [last]) ++ rest) :=
    ⟨ending, _, rfl, by simp [hending]⟩
  have hblock : Takes b rest (vs ++ [last]) es (Parse.inFunction blockRest) (pure body) :=
    takes_inFunction (takes_blockRest hbody hlast rest)
  rw [List.append_assoc]
  refine takes_peek ?_
  rw [hkeyword]
  refine takes_advance (takes_expect hname (takes_expect hopening ?_))
  refine (hparams b _ hparen).seq (takes_expect hending (takes_expect hbrace ?_))
  exact hblock.bind _

/-- The declaration of a variable is read by its keyword. -/
theorem understood_varDeclaration {b : Bool} {keyword : Token} {d : Stmt}
    (hkeyword : keyword.kind = .kwVar) (hd : Understood .variable us d ds) :
    Understood (.declaration b) (keyword :: us) d ds := by
  intro rest _
  refine takes_peek ?_
  rw [hkeyword]
  exact takes_advance (hd b rest)

/-- A statement is read where the parser reads declarations: neither keyword begins it. -/
theorem understood_statementDeclaration {b hanging : Bool} {d : Stmt}
    (hbegins : Begins statementKinds us) (hd : Understood (.statement b hanging) us d ds) :
    Understood (.declaration b) us d ds := by
  intro rest hclear
  have h : Takes b rest us ds (Routine.call Goal.statement) (pure d) :=
    takes_call (hd rest fun _ => hclear)
  obtain ⟨t, us, rfl, ht⟩ := hbegins
  refine takes_peek ?_
  have hkinds : ∀ kind ∈ statementKinds, kind ∉ [.kwFun, .kwVar] := by decide
  have hkind := hkinds _ ht
  split <;> simp_all

/-- A declaration that is not abandoned. -/
theorem takes_declaration {b : Bool} {rest : List Token} {d : Stmt}
    (h : Takes b rest us ds declarationBody (pure d)) :
    Takes b rest us ds (Routine.call Goal.declaration) (pure (some d)) := by
  refine takes_call fun s hs hb => ?_
  have hattempt : value rules (Routine.attempt declarationBody) s = some (.ok (.ok d), s.beyond us ds) := by
    rw [Routine.value_attempt, h s hs hb]
    rfl
  show value rules (Routine.attempt declarationBody >>= _) s = _
  rw [Routine.value_bind_ok rules _ hattempt]

/-- A further declaration is read by the loop that those before have come to. It does not begin with an
`else`, so they end there. -/
theorem understood_moreDeclarations {b : Bool} {ss : List Stmt} {d : Stmt}
    (hss : Understood (.declarations b) us ss ds) (hbegins : Begins declarationKinds vs)
    (hd : Understood (.declaration b) vs d es) :
    Understood (.declarations b) (us ++ vs) (ss ++ [d]) (ds ++ es) := by
  intro rest hclear
  have hread := hss (vs ++ rest) (hbegins.clear (by decide) rest)
  have hround := takes_declaration (hd rest hclear)
  obtain ⟨t, vs, rfl, ht⟩ := hbegins
  have hkinds : ∀ kind ∈ declarationKinds, kind ∉ [.rightBrace, .eof] := by decide
  have hkind := hkinds _ ht
  rw [List.mem_cons, List.mem_singleton] at hkind
  rw [List.reverse_append]
  constructor
  · refine hread.1.trans (takes_peekKind rfl ?_)
    rw [if_neg hkind]
    exact (hround.bind _).stop (takes_become (Takes.refl _))
  · refine hread.2.trans (takes_peekKind rfl ?_)
    rw [if_neg fun h => hkind (.inr h)]
    exact (hround.bind _).stop (takes_become (Takes.refl _))

/-! ## All phrases -/

/-- What a phrase that is not empty begins with. -/
theorem Derives.begins_of_not_nullable {x : Symbol} {r : x.Tree} (h : Derives x us r ds)
    (hx : x.nullable = false) : Begins x.firsts us := by
  rcases h.begins with ⟨hnull, -⟩ | h
  · rw [hx] at hnull
    cases hnull
  · exact h

/-- **Every phrase is read as what it is.** -/
theorem Derives.understood {x : Symbol} {r : x.Tree} (h : Derives x us r ds) :
    Understood x us r ds := by
  induction h with
  | noDeclarations => exact fun rest _ => ⟨Takes.refl _, Takes.refl _⟩
  | moreDeclarations _ hs ihs ih => exact understood_moreDeclarations ihs (hs.begins_of_not_nullable rfl) ih
  | function h h' h'' _ h₃ h₄ _ h₅ ih ih' => exact understood_function h h' h'' ih h₃ h₄ ih' h₅
  | varDeclaration h _ ih => exact understood_varDeclaration h ih
  | statementDeclaration h ih =>
    exact understood_statementDeclaration (h.begins_of_not_nullable rfl) ih
  | bareVariable h h' => exact understood_bareVariable h h'
  | initializedVariable h h' _ h'' ih => exact understood_initializedVariable h h' ih h''
  | noParameters => exact understood_noParameters
  | someParameters h ih => exact understood_someParameters (h.begins_of_not_nullable rfl) ih
  | firstParameter h => exact understood_firstParameter h
  | moreParameters _ h h' ih => exact understood_moreParameters ih h h'
  | print h _ h' ih => exact understood_print h ih h'
  | ifThen h h' _ h'' _ ih ih' => exact understood_ifThen h h' ih h'' ih'
  | ifElse h h' _ h'' _ h₃ _ ih ih' ih'' => exact understood_ifElse h h' ih h'' ih' h₃ ih''
  | «while» h h' _ h'' _ ih ih' => exact understood_while h h' ih h'' ih'
  | «for» h h' _ _ h'' _ h₃ _ ih ih' ih'' ih₃ => exact understood_for h h' ih ih' h'' ih'' h₃ ih₃
  | «return» h _ h' ih => exact understood_return h ih h'
  | block h _ h' ih => exact understood_block h ih h'
  | expressionStatement h h' ih =>
    exact understood_expressionStatement (h.begins_of_not_nullable rfl) ih h'
  | noInitializer h => exact understood_noInitializer h
  | varInitializer h _ ih => exact understood_varInitializer h ih
  | expressionInitializer h h' ih =>
    exact understood_expressionInitializer (h.begins_of_not_nullable rfl) ih h'
  | noClause => exact understood_noClause
  | someClause h ih => exact understood_someClause (h.begins_of_not_nullable rfl) ih
  | noAssignment _ ih => exact understood_noAssignment ih
  | assignment _ h _ ih ih' => exact understood_assignment ih h ih'
  | noOperation _ ih => exact understood_noOperation ih
  | moreOperations hrung _ h _ ih ih' =>
    obtain ⟨rfl, rfl⟩ := rung_mem_iff.1 hrung
    exact understood_moreOperations ih h ih'
  | tighterOperand h _ ih => exact understood_tighterOperand (tighter_iff.1 h) ih
  | unaryOperand h _ ih => exact understood_unaryOperand (tightest_iff.1 h) ih
  | unary h _ ih => exact understood_unary h ih
  | noUnary _ ih => exact understood_noUnary ih
  | noCall h ih => exact understood_noCall (h.begins_of_not_nullable rfl) ih
  | call _ h _ h' ih ih' => exact understood_call ih h ih' h'
  | noArguments => exact understood_noArguments
  | someArguments h ih => exact understood_someArguments (h.begins_of_not_nullable rfl) ih
  | firstArgument _ ih => exact understood_firstArgument ih
  | moreArguments _ h _ ih ih' => exact understood_moreArguments ih h ih'
  | constant h => exact understood_constant h
  | name h => exact understood_name h
  | grouping h _ h' ih => exact understood_grouping h ih h'

/-- **Whatever is derived is read**: a program of the relaxed grammar is read to its end. -/
theorem value_program_of_derives {s : State} {program : List Stmt} (hs : s.Sealed)
    (h : Derives (.declarations s.inBody) s.rest program ds) :
    value rules (Grammar.program []) s = some (.ok program, s.beyond s.rest ds) := by
  have hread := (h.understood [] (clear_nil _)).2 s (List.append_nil _).symm rfl
  rw [hread]
  have hpeek : (s.beyond s.rest ds).peek.kind = .eof := by
    simpa [State.peek, State.beyond] using hs.1
  show value rules (if (s.beyond s.rest ds).peek.kind = .eof then _ else _) _ = _
  rw [if_pos hpeek, List.reverse_reverse]
  rfl

end Treewalk.Grammar
