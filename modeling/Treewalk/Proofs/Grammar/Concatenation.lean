import Treewalk.Proofs.Evaluation.Sequence
import Treewalk.Proofs.Tree.Relabel

/-!
# Programs one after the other, and programs elsewhere

Two facts about sentences that need no parser, because a derivation looks at no token outside its
phrase. A sentence after a sentence is a sentence, which stands for the one program and then the other
(`Derives.append`); in particular no `if` at the end of the first takes an `else` from the second.
And the grammar does not see where tokens are: a sentence whose tokens are moved is a sentence, which
stands for the program with the same tokens moved (`Derives.relabel`).

A sentence stands for a program without a `return` outside functions (`Derives.returnless`).
-/

namespace Treewalk.Grammar

/-! ## Appending -/

/-- Declarations may follow other declarations. Nothing is said of other phrases. -/
def Symbol.MayFollow : (x : Symbol) → List Token → x.Tree → List Diagnostic → Prop
  | declarations b, vs, ts, es => ∀ us ss ds, Derives (.declarations b) us ss ds →
      Derives (.declarations b) (us ++ vs) (ss ++ ts) (ds ++ es)
  | _, _, _, _ => True

/-- Declarations may follow declarations of the same kind, by induction on those that follow. Of other
phrases nothing is said. -/
theorem Derives.mayFollow {x : Symbol} {vs : List Token} {r : x.Tree} {es : List Diagnostic}
    (h : Derives x vs r es) : x.MayFollow vs r es := by
  induction h with
  | noDeclarations =>
    intro us ss ds h
    simpa using h
  | moreDeclarations _ hs ih =>
    intro us ss ds h
    simpa using Derives.moreDeclarations (ih us ss ds h) hs
  | _ => trivial

/-- **A program after a program is a program.** -/
theorem Derives.append {b : Bool} {us vs : List Token} {ss ts : List Stmt}
    {ds es : List Diagnostic} (h : Derives (.declarations b) us ss ds)
    (h' : Derives (.declarations b) vs ts es) :
    Derives (.declarations b) (us ++ vs) (ss ++ ts) (ds ++ es) :=
  h'.mayFollow us ss ds h

/-! ## No `return` outside functions -/

/-- What a phrase outside functions stands for has no `return` outside functions. -/
def Symbol.Returnless : (x : Symbol) → x.Tree → Prop
  | declarations false => Stmt.ReturnlessAll
  | declaration false => Stmt.Returnless
  | statement false _ => Stmt.Returnless
  | .variable => Stmt.Returnless
  | initializer => fun init => Stmt.ReturnlessAll init.toList
  | _ => fun _ => True

/-- A lowered loop has no `return` that its clauses and its body do not have. -/
theorem returnless_forLoop {init : Option Stmt} (hinit : Stmt.ReturnlessAll init.toList)
    (condition : Expr) (increment : Option Expr) {body : Stmt} (hbody : body.Returnless) :
    (forLoop init condition increment body).Returnless := by
  refine Stmt.returnlessAll_append hinit ⟨?_, trivial⟩
  cases increment with
  | none => exact hbody
  | some e => exact ⟨hbody, trivial, trivial⟩

/-- **A sentence has no `return` outside functions.** -/
theorem Derives.returnless {x : Symbol} {us : List Token} {r : x.Tree} {ds : List Diagnostic}
    (h : Derives x us r ds) (hds : ds = []) : x.Returnless r := by
  induction h with
  | @moreDeclarations b us vs ss s ds es hss hs ihs ih =>
    obtain ⟨hds, hes⟩ := List.append_eq_nil_iff.1 hds
    cases b with
    | true => trivial
    | false => exact Stmt.returnlessAll_append (ihs hds) ⟨ih hes, trivial⟩
  | @varDeclaration b _ _ _ _ _ _ ih | @statementDeclaration b _ _ _ _ _ ih =>
    cases b with
    | true => trivial
    | false => exact ih hds
  | @ifThen b _ _ _ _ _ _ _ _ _ _ _ _ _ _ _ _ ih | @«while» b _ _ _ _ _ _ _ _ _ _ _ _ _ _ _ _ ih =>
    cases b with
    | true => trivial
    | false => exact ih (List.append_eq_nil_iff.1 hds).2
  | @ifElse b _ _ _ _ _ _ _ _ _ _ _ _ _ _ _ _ _ _ _ _ _ _ ih ih' =>
    obtain ⟨hds, hfs⟩ := List.append_eq_nil_iff.1 hds
    cases b with
    | true => trivial
    | false => exact ⟨ih (List.append_eq_nil_iff.1 hds).2, ih' hfs⟩
  | @«for» b _ _ _ _ _ _ _ _ _ _ _ _ _ _ _ _ _ _ _ _ _ _ _ _ _ ihinit _ _ ih =>
    obtain ⟨hds, hgs⟩ := List.append_eq_nil_iff.1 hds
    obtain ⟨hds, -⟩ := List.append_eq_nil_iff.1 hds
    cases b with
    | true => trivial
    | false => exact returnless_forLoop (ihinit (List.append_eq_nil_iff.1 hds).1) _ _ (ih hgs)
  | @«return» b =>
    cases b with
    | true => trivial
    | false => cases hds
  | @block b _ _ _ _ _ _ _ _ ih =>
    cases b with
    | true => trivial
    | false => exact ih hds
  | @noDeclarations b | @function b | @print b | @expressionStatement b => cases b <;> trivial
  | varInitializer _ _ ih => exact ⟨ih hds, trivial⟩
  | expressionInitializer => exact ⟨trivial, trivial⟩
  | _ => trivial

/-! ## Moving tokens -/

variable {φ : Token → Token}

/-- What a phrase stands for, with every token replaced. -/
def Symbol.relabel (φ : Token → Token) : (x : Symbol) → x.Tree → x.Tree
  | declarations _ => Stmt.relabelAll φ
  | declaration _ => Stmt.relabel φ
  | .variable => Stmt.relabel φ
  | parameterList => List.map φ
  | parameters => List.map φ
  | statement _ _ => Stmt.relabel φ
  | initializer => Option.map (Stmt.relabel φ)
  | clause => Option.map (Expr.relabel φ)
  | expression => Expr.relabel φ
  | operation _ => Expr.relabel φ
  | operand _ => Expr.relabel φ
  | unary => Expr.relabel φ
  | call => Expr.relabel φ
  | argumentList => Expr.relabelAll φ
  | arguments => Expr.relabelAll φ
  | primary => Expr.relabel φ

/-- Moving the tokens of an operation moves those of its sides and its operator. -/
theorem relabel_join (level : Level) (left right : Expr) (operator : Token) :
    (level.join left operator right).relabel φ =
      level.join (left.relabel φ) (φ operator) (right.relabel φ) := by
  cases level <;> rfl

/-- The condition that is supplied where a loop has none has no token to move. -/
theorem relabel_condition (condition : Option Expr) :
    (condition.getD (.literal (.boolean true))).relabel φ =
      (condition.map (Expr.relabel φ)).getD (.literal (.boolean true)) := by
  cases condition <;> rfl

/-- Moving the tokens of a lowered loop moves those of its clauses and its body. -/
theorem relabel_forLoop (init : Option Stmt) (condition : Expr) (increment : Option Expr)
    (body : Stmt) :
    (forLoop init condition increment body).relabel φ =
      forLoop (init.map (Stmt.relabel φ)) (condition.relabel φ)
        (increment.map (Expr.relabel φ)) (body.relabel φ) := by
  cases init <;> cases increment <;> rfl

/-- A token that is moved denotes the same constant. -/
theorem constant?_of_moves (hφ : Token.Moves φ) (t : Token) : (φ t).constant? = t.constant? := by
  unfold Token.constant?
  rw [hφ.kind_eq, hφ.literal_eq]

/-- Whether a list has too many entries does not depend on which token would be complained about. -/
theorem overLimit_of_nil {before : Nat} {t : Token} {complaint : Complaint}
    (h : overLimit before t complaint = []) (u : Token) : overLimit before u complaint = [] := by
  unfold overLimit at h ⊢
  split at h
  · cases h
  next hlt => rw [if_neg hlt]

attribute [local simp] Symbol.relabel Expr.relabel Stmt.relabel Expr.relabelAll_eq_map
  Stmt.relabelAll_eq_map

/-- **The grammar does not see where tokens are.** -/
theorem Derives.relabel (hφ : Token.Moves φ) {x : Symbol} {us : List Token} {r : x.Tree}
    {ds : List Diagnostic} (h : Derives x us r ds) (hds : ds = []) :
    Derives x (us.map φ) (x.relabel φ r) [] := by
  have hkind {t : Token} {k : Kind} (ht : t.kind = k) : (φ t).kind = k := (hφ.kind_eq t).trans ht
  have hmem {t : Token} {ks : List Kind} (ht : t.kind ∈ ks) : (φ t).kind ∈ ks := by
    rwa [hφ.kind_eq]
  induction h with
  | noDeclarations => exact .noDeclarations
  | moreDeclarations hss hs ihs ih =>
    obtain ⟨hds, hes⟩ := List.append_eq_nil_iff.1 hds
    simpa using Derives.moreDeclarations (ihs hds) (ih hes)
  | function hkeyword hname hopening _ hclosing hbrace _ hending ihparams ihbody =>
    obtain ⟨hds, hes⟩ := List.append_eq_nil_iff.1 hds
    simpa using Derives.function (hkind hkeyword) (hkind hname) (hkind hopening) (ihparams hds)
      (hkind hclosing) (hkind hbrace) (ihbody hes) (hkind hending)
  | varDeclaration hkeyword _ ih => exact .varDeclaration (hkind hkeyword) (ih hds)
  | statementDeclaration _ ih => exact .statementDeclaration (ih hds)
  | bareVariable hname hending => exact .bareVariable (hkind hname) (hkind hending)
  | initializedVariable hname hequals _ hending ih =>
    simpa using Derives.initializedVariable (hkind hname) (hkind hequals) (ih hds) (hkind hending)
  | noParameters => exact .noParameters
  | someParameters _ ih => exact .someParameters (ih hds)
  | firstParameter hname => exact .firstParameter (hkind hname)
  | moreParameters _ hcomma hname ih =>
    obtain ⟨hds, hlimit⟩ := List.append_eq_nil_iff.1 hds
    have hmore := Derives.moreParameters (ih hds) (hkind hcomma) (hkind hname)
    simpa [overLimit_of_nil hlimit] using hmore
  | print hkeyword _ hending ih =>
    simpa using Derives.print (hkind hkeyword) (ih hds) (hkind hending)
  | ifThen hkeyword hopening _ hclosing _ ih ihs =>
    obtain ⟨hds, hes⟩ := List.append_eq_nil_iff.1 hds
    simpa using Derives.ifThen (hkind hkeyword) (hkind hopening) (ih hds) (hkind hclosing) (ihs hes)
  | ifElse hkeyword hopening _ hclosing _ hother _ ih ihs ihs' =>
    obtain ⟨hds, hfs⟩ := List.append_eq_nil_iff.1 hds
    obtain ⟨hds, hes⟩ := List.append_eq_nil_iff.1 hds
    simpa using Derives.ifElse (hkind hkeyword) (hkind hopening) (ih hds) (hkind hclosing)
      (ihs hes) (hkind hother) (ihs' hfs)
  | «while» hkeyword hopening _ hclosing _ ih ihs =>
    obtain ⟨hds, hes⟩ := List.append_eq_nil_iff.1 hds
    simpa using Derives.while (hkind hkeyword) (hkind hopening) (ih hds) (hkind hclosing) (ihs hes)
  | «for» hkeyword hopening _ _ hmiddle _ hclosing _ ihinit ihcondition ihincrement ihs =>
    obtain ⟨hds, hgs⟩ := List.append_eq_nil_iff.1 hds
    obtain ⟨hds, hfs⟩ := List.append_eq_nil_iff.1 hds
    obtain ⟨hds, hes⟩ := List.append_eq_nil_iff.1 hds
    have hfor := Derives.for (hkind hkeyword) (hkind hopening) (ihinit hds) (ihcondition hes)
      (hkind hmiddle) (ihincrement hfs) (hkind hclosing) (ihs hgs)
    simpa [relabel_forLoop, relabel_condition] using hfor
  | @«return» b keyword _ _ _ _ hkeyword _ hending ih =>
    obtain ⟨hstray, hds⟩ := List.append_eq_nil_iff.1 hds
    have hreturn := Derives.return (b := b) (hkind hkeyword) (ih hds) (hkind hending)
    cases b with
    | true => simpa [strayReturn] using hreturn
    | false => cases hstray
  | block hopening _ hclosing ih =>
    simpa using Derives.block (hkind hopening) (ih hds) (hkind hclosing)
  | expressionStatement _ hending ih =>
    simpa using Derives.expressionStatement (ih hds) (hkind hending)
  | noInitializer hending => exact .noInitializer (hkind hending)
  | varInitializer hkeyword _ ih => exact .varInitializer (hkind hkeyword) (ih hds)
  | expressionInitializer _ hending ih =>
    simpa using Derives.expressionInitializer (ih hds) (hkind hending)
  | noClause => exact .noClause
  | someClause _ ih => exact .someClause (ih hds)
  | noAssignment _ ih => exact .noAssignment (ih hds)
  | assignment _ hequals _ iht ihv =>
    obtain ⟨hparts, hbad⟩ := List.append_eq_nil_iff.1 hds
    obtain ⟨hparts, hes⟩ := List.append_eq_nil_iff.1 hparts
    obtain ⟨name, rfl⟩ := exists_variable_of_badTarget hbad
    simpa [Grammar.assignment, badTarget] using
      Derives.assignment (iht hparts) (hkind hequals) (ihv hes)
  | noOperation _ ih => exact .noOperation (ih hds)
  | moreOperations hrung _ hoperator _ ih ih' =>
    obtain ⟨rfl, rfl⟩ := rung_mem_iff.1 hrung
    obtain ⟨hds, hes⟩ := List.append_eq_nil_iff.1 hds
    simpa [relabel_join] using (ih hds).operation_of_join (hmem hoperator) (ih' hes)
  | tighterOperand hnext _ ih => exact .tighterOperand hnext (ih hds)
  | unaryOperand hnext _ ih => exact .unaryOperand hnext (ih hds)
  | unary hoperator _ ih => exact .unary (hmem hoperator) (ih hds)
  | noUnary _ ih => exact .noUnary (ih hds)
  | noCall _ ih => exact .noCall (ih hds)
  | call _ hopening _ hclosing ih ihargs =>
    obtain ⟨hds, hes⟩ := List.append_eq_nil_iff.1 hds
    simpa using Derives.call (ih hds) (hkind hopening) (ihargs hes) (hkind hclosing)
  | noArguments => exact .noArguments
  | someArguments _ ih => exact .someArguments (ih hds)
  | firstArgument _ ih => exact .firstArgument (ih hds)
  | moreArguments _ hcomma _ ih ihe =>
    obtain ⟨hds, hes⟩ := List.append_eq_nil_iff.1 hds
    obtain ⟨hds, hlimit⟩ := List.append_eq_nil_iff.1 hds
    have hmore := Derives.moreArguments (ih hds) (hkind hcomma) (ihe hes)
    simpa [overLimit_of_nil hlimit] using hmore
  | constant h => exact .constant ((constant?_of_moves hφ _).trans h)
  | name h => exact .name (hkind h)
  | grouping hopening _ hclosing ih =>
    simpa using Derives.grouping (hkind hopening) (ih hds) (hkind hclosing)

end Treewalk.Grammar
