import Treewalk.Proofs.Grammar.Written
import Treewalk.Proofs.Tree.Forms
import Treewalk.Proofs.Tree.Outline

/-!
# The outline spells the form

The tokens of an outline are read with a stack of the lists that are open: an opening parenthesis begins a
list, a closing one ends it and puts it into the list around it, and every other token is put into the innermost
list (`Stack.step`). A text `Shows` what its tokens do to the stack, wherever it is put, and what texts show one
after the other is what they show together (`Shows.append`).

So the outline of a tree puts the form of the tree into the innermost list (`Expr.shows_outline`,
`Stmt.shows_outline`), if the tree is `Legible`: its tokens fit where they stand, a number in it has digits, and
a string in it has no quote. It does not matter what its lines are indented by, as long as these are blanks.
-/

namespace Treewalk

open Token Grammar

/-! ## Reading forms from tokens -/

/-- The lists that are open, the innermost first, each with its last form first. -/
structure Stack where
  top : List Form
  below : List (List Form)

namespace Stack

/-- Begin a list. -/
def enter (s : Stack) : Stack :=
  ⟨[], s.top :: s.below⟩

/-- Put some forms into the innermost list. -/
def put (fs : List Form) (s : Stack) : Stack :=
  { s with top := fs.reverse ++ s.top }

/-- End a list, which is put into the one around it. -/
def leave (s : Stack) : Stack :=
  ⟨.list s.top.reverse :: s.below.headD [], s.below.tail⟩

/-- What a token does to the stack. -/
def step (s : Stack) (t : Token) : Stack :=
  match t.kind with
  | .leftParen => s.enter
  | .rightParen => s.leave
  | _ => s.put [.ofToken t]

/-- A token that is no parenthesis is put into the innermost list. -/
theorem step_of_ne {t : Token} (h : t.kind ∉ [.leftParen, .rightParen]) (s : Stack) :
    s.step t = s.put [.ofToken t] := by
  unfold step
  split <;> simp_all

/-- Forms that are put one after the other are put together. -/
theorem put_put (fs gs : List Form) (s : Stack) : (s.put fs).put gs = s.put (fs ++ gs) := by
  simp [put]

/-- A list that is begun, filled and ended is one form in the list around it. -/
theorem leave_put_enter (fs : List Form) (s : Stack) : ((s.enter.put fs)).leave = s.put [.list fs] := by
  simp [leave, put, enter]

end Stack

/-! ## What a text shows -/

/-- In front of a text for which `before` holds, the text is read as tokens, and `effect` is what they do to the
stack. -/
def Shows (before : List Char → Prop) (text : String) (effect : Stack → Stack) : Prop :=
  ∀ p rest, before rest → ∃ vs p', Yields ⟨p, text.toList ++ rest⟩ vs ⟨p', rest⟩ ∧
    ∀ s, vs.foldl Stack.step s = effect s

/-- Whatever stands behind the text. -/
def Anywhere (_ : List Char) : Prop :=
  True

variable {before before' : List Char → Prop} {text text' : String} {effect effect' : Stack → Stack}
  {fs gs : List Form}

/-- Texts that stand one behind the other show what they show one after the other. -/
theorem Shows.append (h : Shows before text effect) (h' : Shows before' text' effect')
    (hbefore : ∀ rest, before' rest → before (text'.toList ++ rest)) :
    Shows before' (text ++ text') fun s => effect' (effect s) := by
  intro p rest hrest
  obtain ⟨us, p₁, hus, hfold⟩ := h p (text'.toList ++ rest) (hbefore rest hrest)
  obtain ⟨vs, p₂, hvs, hfold'⟩ := h' p₁ rest hrest
  refine ⟨us ++ vs, p₂, ?_, fun s => ?_⟩
  · rw [String.toList_append, List.append_assoc]
    exact hus.append hvs
  · rw [List.foldl_append, hfold, hfold']

/-- A text shows the same where less can stand behind it. -/
theorem Shows.mono (h : Shows before text effect) (hbefore : ∀ rest, before' rest → before rest) :
    Shows before' text effect :=
  fun p rest hrest => h p rest (hbefore rest hrest)

/-- The empty text shows nothing. -/
theorem shows_nothing : Shows before "" id :=
  fun _ _ _ => ⟨[], _, .nil, fun _ => rfl⟩

/-- Blanks show nothing. -/
theorem shows_blanks (h : ∀ c ∈ text.toList, CharClass.isBlank c) : Shows before text id := by
  intro p rest hrest
  generalize text.toList = cs at h
  induction cs generalizing p with
  | nil => exact ⟨[], p, .nil, fun _ => rfl⟩
  | cons c cs ih =>
    obtain ⟨hc, hcs⟩ := List.forall_mem_cons.1 h
    obtain ⟨vs, p', hvs, hfold⟩ := ih (p.advance c) hcs
    exact ⟨vs, p', .blank hc hvs, hfold⟩

/-- A token shows what it does. -/
theorem shows_lexeme {kind : Kind} (h : IsLexeme kind text.toList) :
    Shows (Apart kind) text (Stack.step · (Token.glyph kind text)) := by
  intro p rest hrest
  refine ⟨_, _, .token h hrest .nil, fun s => ?_⟩
  have herase := erase_made kind p text.toList
  rw [String.ofList_toList] at herase
  show s.step (made kind p text.toList) = s.step (Token.glyph kind text)
  rw [← herase]
  rfl

/-- A lexeme that is no parenthesis shows itself. -/
theorem shows_atom {kind : Kind} (h : IsLexeme kind text.toList)
    (hkind : kind ∉ [.leftParen, .rightParen]) :
    Shows Delimited text (Stack.put [.glyph kind text]) := by
  have hstep : (Stack.step · (Token.glyph kind text)) = Stack.put [.glyph kind text] :=
    funext fun s => Stack.step_of_ne hkind s
  rw [← hstep]
  exact (shows_lexeme h).mono fun rest hrest => hrest.apart kind

/-- A token of a tree, at a place where no parenthesis can stand. -/
theorem shows_token {kinds : List Kind} {t : Token} (h : t.Fits kinds)
    (hkinds : ∀ kind ∈ kinds, kind ∉ [.leftParen, .rightParen]) :
    Shows Delimited t.lexeme (Stack.put [.ofToken t]) := by
  have hshows := shows_atom h.2.isLexeme (hkinds _ h.1)
  unfold Form.glyph at hshows
  rwa [← h.2.erase_eq] at hshows

/-- The spelling of a kind shows a token of this kind. -/
theorem shows_spelling {kind : Kind} (h : kind.spelling? = some text)
    (hkind : kind ∉ [.leftParen, .rightParen]) :
    Shows Delimited text (Stack.put [.glyph kind text]) :=
  shows_atom (isLexeme_spelling h) hkind

/-- An opening parenthesis begins a list, whatever stands behind it. -/
theorem shows_opening : Shows before "(" Stack.enter := by
  have hlexeme : IsLexeme .leftParen "(".toList := isLexeme_spelling rfl
  exact (shows_lexeme hlexeme).mono fun _ _ _ _ => rfl

/-- A closing parenthesis ends a list, whatever stands behind it. -/
theorem shows_closing : Shows before ")" Stack.leave := by
  have hlexeme : IsLexeme .rightParen ")".toList := isLexeme_spelling rfl
  exact (shows_lexeme hlexeme).mono fun _ _ _ _ => rfl

/-! ## Lists -/

/-- One form in the innermost list. -/
abbrev ShowsForm (text : String) (f : Form) : Prop :=
  Shows Delimited text (Stack.put [f])

/-- With operands in front, each behind a space, a delimited text is still delimited. -/
theorem delimited_join {texts : List String} {rest : List Char} (h : Delimited rest) :
    Delimited ((String.join (texts.map (" " ++ ·))).toList ++ rest) := by
  cases texts with
  | nil => simpa using h
  | cons text texts =>
    rw [List.map_cons, String.join_cons, String.append_assoc, String.toList_append]
    exact delimited_cons (by decide) _

/-- Operands behind a space each show their forms, in order. -/
theorem shows_operands {texts : List String} (h : List.Forall₂ ShowsForm texts fs) :
    Shows Delimited (String.join (texts.map (" " ++ ·))) (Stack.put fs) := by
  induction h with
  | nil => exact shows_nothing
  | @cons text f texts fs h _ ih =>
    have hblank : Shows Anywhere " " id := shows_blanks (by simp [CharClass.isBlank])
    have hall := (hblank.append h fun _ _ => trivial).append ih fun _ => delimited_join
    simp only [id, Stack.put_put] at hall
    rw [List.map_cons, String.join_cons]
    exact hall

/-- What a list begins with: the tokens that tell what it is, and its first parts. -/
def opened (sign : String) (texts : List String) : String :=
  "(" ++ sign ++ String.join (texts.map (" " ++ ·))

/-- An opened list with its sign and its operands shows the list as far as it goes. -/
theorem shows_opened {sign : String} {texts : List String} {heads : List Form}
    (hsign : Shows Delimited sign (Stack.put heads)) (htexts : List.Forall₂ ShowsForm texts fs) :
    Shows Delimited (opened sign texts) fun s => (s.enter).put (heads ++ fs) := by
  have hopening : Shows Anywhere "(" Stack.enter := shows_opening
  have hall := (hopening.append hsign fun _ _ => trivial).append (shows_operands htexts) fun _ =>
    delimited_join
  simp only [Stack.put_put] at hall
  exact hall

/-- A whole list. -/
theorem shows_list {sign : String} {texts : List String} {heads : List Form}
    (hsign : Shows Delimited sign (Stack.put heads)) (htexts : List.Forall₂ ShowsForm texts fs) :
    Shows before (opened sign texts ++ ")") (Stack.put [.list (heads ++ fs)]) := by
  have hclosing : Shows before ")" Stack.leave := shows_closing
  have hall := (shows_opened hsign htexts).append hclosing fun rest _ => delimited_cons (by decide) rest
  simpa only [Stack.leave_put_enter] using hall

/-! ## Lines -/

/-- The lines of the outline are indented by blanks. -/
def Printer.Blank (p : Printer) : Prop :=
  ∀ c ∈ p.indentation.toList, CharClass.isBlank c

variable {p : Printer}

/-- A printer that indents by blanks does so one level deeper. -/
theorem Printer.Blank.deeper (h : p.Blank) : p.deeper.Blank :=
  h

/-- A line shows what stands on it. -/
theorem shows_line (hp : p.Blank) (h : Shows Delimited text effect) : Shows before (p.line text) effect := by
  have hblanks : ∀ c ∈ (String.join (List.replicate p.level p.indentation)).toList,
      CharClass.isBlank c := by
    intro c hc
    rw [String.toList_join] at hc
    obtain ⟨text, htext, hc⟩ := List.mem_flatMap.1 hc
    rw [List.eq_of_mem_replicate htext] at hc
    exact hp c hc
  have hindentation : Shows Anywhere _ id := shows_blanks hblanks
  have hend : Shows before "\n" id := shows_blanks (by simp [CharClass.isBlank])
  exact (hindentation.append h fun _ _ => trivial).append hend fun rest _ =>
    delimited_cons (by decide) rest

/-- What stands between the line that begins a list and the one that ends it is part of the list. -/
theorem shows_enclosed {sign inner : String} {texts : List String} {heads : List Form} (hp : p.Blank)
    (hsign : Shows Delimited sign (Stack.put heads)) (htexts : List.Forall₂ ShowsForm texts fs)
    (hinner : Shows Anywhere inner (Stack.put gs)) :
    Shows Anywhere (p.line (opened sign texts) ++ inner ++ p.line ")")
      (Stack.put [.list (heads ++ fs ++ gs)]) := by
  have hopened : Shows Anywhere _ _ := shows_line hp (shows_opened hsign htexts)
  have hclosing : Shows Anywhere _ _ := shows_line hp shows_closing
  have hall := (hopened.append hinner fun _ _ => trivial).append hclosing fun _ _ => trivial
  simpa only [Stack.put_put, Stack.leave_put_enter] using hall

/-! ## Trees that can be read -/

/-- A constant whose text is a lexeme: a number that was read and has digits, and a string without quotes. -/
def Constant.Legible : Constant → Prop
  | .number value => ∃ numeral, value = Number.ofNumeral numeral ∧ value.isFinite
  | .string value => '"' ∉ value.toList
  | _ => True

/-- If the expression is a constant then the text of this is a lexeme. -/
def Expr.Plain (e : Expr) : Prop :=
  ∀ c, e = .literal c → c.Legible

/-- The tokens of an expression fit where they stand, and its constants have texts that are lexemes. -/
structure Expr.Legible (e : Expr) : Prop where
  fits : e.Fits
  plain : e.Everywhere Expr.Plain

/-- The tokens of a statement fit where they stand, and its constants have texts that are lexemes. -/
structure Stmt.Legible (s : Stmt) : Prop where
  fits : s.Fits
  plain : s.Everywhere Expr.Plain

/-- The parts of a legible expression are legible. -/
theorem Expr.Legible.part {e part : Expr} (h : e.Legible) (hpart : part ∈ e.parts) : part.Legible :=
  ⟨h.fits.part hpart, (Expr.everywhere_iff.1 h.plain).2 part hpart⟩

/-- The expressions of a legible statement are legible. -/
theorem Stmt.Legible.expr {s : Stmt} {e : Expr} (h : s.Legible) (he : e ∈ s.exprs) : e.Legible :=
  ⟨h.fits.expr he, (Stmt.everywhere_iff.1 h.plain).1 e he⟩

/-- The statements in a legible statement are legible. -/
theorem Stmt.Legible.part {s part : Stmt} (h : s.Legible) (hpart : part ∈ s.parts) : part.Legible :=
  ⟨h.fits.part hpart, (Stmt.everywhere_iff.1 h.plain).2 part hpart⟩

/-! ## Expressions -/

/-- A legible constant shows its token. -/
theorem shows_constant {c : Constant} (h : c.Legible) :
    ShowsForm (Expr.literal c).outline (.atom c.token) := by
  match c, h with
  | .nil, _ | .boolean true, _ | .boolean false, _ => exact shows_spelling rfl (by decide)
  | .number value, ⟨numeral, hvalue, hfinite⟩ =>
    subst hvalue
    obtain ⟨cs, htext, hnumeral, hvalue⟩ := Number.text_ofNumeral Number.valueStyle hfinite
    have hlexeme : IsLexeme .number (String.ofList cs).toList := by
      rw [String.toList_ofList]
      exact .number hnumeral
    have hshows := shows_atom hlexeme (by decide)
    -- the digits are not those that were read, but they have the same value
    have htoken : Token.glyph .number (String.ofList cs) =
        (Constant.number (Number.ofNumeral numeral)).token := by
      simp [Token.glyph, Constant.token, literalOf, htext, hvalue]
    rw [Form.glyph, htoken, ← htext] at hshows
    exact hshows
  | .string value, h =>
    have hquoted : ("\"" ++ value ++ "\"").toList = '"' :: (value.toList ++ ['"']) := by simp
    have hlexeme : IsLexeme .string ("\"" ++ value ++ "\"").toList := by
      rw [hquoted]
      exact .string h
    have htoken : Token.glyph .string ("\"" ++ value ++ "\"") = (Constant.string value).token := by
      simp [Token.glyph, Constant.token, literalOf, hquoted]
    have hshows := shows_atom hlexeme (by decide)
    rw [Form.glyph, htoken] at hshows
    exact hshows

/-- A name, as the outline has some in places where no name of a program can stand. -/
theorem shows_word {ch : Char} {cs : List Char} (htext : text.toList = ch :: cs)
    (hstart : CharClass.isNameStart ch) (hpart : cs.all CharClass.isNamePart)
    (hkind : Kind.ofWord (String.ofList (ch :: cs)) = .identifier) :
    ShowsForm text (.glyph .identifier text) := by
  have hlexeme := IsLexeme.word hstart (List.all_eq_true.1 hpart)
  rw [hkind, ← htext] at hlexeme
  exact shows_atom hlexeme (by decide)

mutual

/-- **The outline of an expression shows its form.** -/
theorem Expr.shows_outline : (e : Expr) → e.Legible → ShowsForm e.outline e.form
  | .literal c, h => shows_constant ((Expr.everywhere_iff.1 h.plain).1 c rfl)
  | .grouping e, h => by
    have he := Expr.shows_outline e (h.part List.mem_cons_self)
    have hsign : ShowsForm "group" (.glyph .identifier "group") :=
      shows_word rfl rfl rfl rfl
    exact shows_list hsign (.cons he .nil)
  | .unary operator e, h => by
    have hoperator : operator.Fits Kind.unaryOperators := h.fits _ List.mem_cons_self
    have he := Expr.shows_outline e (h.part List.mem_cons_self)
    exact shows_list (shows_token hoperator (by decide)) (.cons he .nil)
  | .binary e operator e', h => by
    have hoperator : operator.Fits Kind.binaryOperators :=
      h.fits _ (List.mem_append_right _ List.mem_cons_self)
    have he := Expr.shows_outline e (h.part List.mem_cons_self)
    have he' := Expr.shows_outline e' (h.part (by simp [Expr.parts]))
    exact shows_list (shows_token hoperator (by decide)) (.cons he (.cons he' .nil))
  | .logical e operator e', h => by
    have hoperator : operator.Fits Kind.logicalOperators :=
      h.fits _ (List.mem_append_right _ List.mem_cons_self)
    have he := Expr.shows_outline e (h.part List.mem_cons_self)
    have he' := Expr.shows_outline e' (h.part (by simp [Expr.parts]))
    exact shows_list (shows_token hoperator (by decide)) (.cons he (.cons he' .nil))
  | .variable name, h => by
    have hname : name.Fits [.identifier] := h.fits _ List.mem_cons_self
    exact shows_token hname (by decide)
  | .assign name e, h => by
    have hname : name.Fits [.identifier] := h.fits _ List.mem_cons_self
    have he := Expr.shows_outline e (h.part List.mem_cons_self)
    have hsign : ShowsForm "=" (.glyph .assign "=") := shows_spelling rfl (by decide)
    exact shows_list hsign (.cons (shows_token hname (by decide)) (.cons he .nil))
  | .call callee _ args, h => by
    have hcallee := Expr.shows_outline callee (h.part List.mem_cons_self)
    have hargs := Expr.show_outlines args fun e he => h.part (List.mem_cons_of_mem _ he)
    have hsign : ShowsForm "call" (.glyph .identifier "call") :=
      shows_word rfl rfl rfl rfl
    exact shows_list hsign (.cons hcallee hargs)

/-- The outlines of legible expressions show their forms. -/
theorem Expr.show_outlines : (es : List Expr) → (∀ e ∈ es, e.Legible) →
    List.Forall₂ ShowsForm (Expr.outlines es) (Expr.forms es)
  | [], _ => .nil
  | e :: es, h =>
    .cons (Expr.shows_outline e (h e List.mem_cons_self))
      (Expr.show_outlines es fun e he => h e (List.mem_cons_of_mem _ he))

end

/-! ## Statements -/

/-- Names with spaces between them show themselves. -/
theorem shows_names {params : List Token} (h : ∀ t ∈ params, t.Fits [.identifier]) :
    Shows Delimited (" ".intercalate (params.map Token.lexeme)) (Stack.put (params.map .ofToken)) := by
  induction params with
  | nil => exact shows_nothing
  | cons name params ih =>
    obtain ⟨hname, hparams⟩ := List.forall_mem_cons.1 h
    have hfirst := shows_token hname (by decide)
    cases params with
    | nil => simpa using hfirst
    | cons next params =>
      have hblank : Shows Anywhere " " id := shows_blanks (by simp [CharClass.isBlank])
      have hrest := hblank.append (ih hparams) fun _ _ => trivial
      have hall := hfirst.append hrest fun rest _ => by
        rw [String.toList_append, List.append_assoc]
        exact delimited_cons (by decide) _
      simp only [id, Stack.put_put] at hall
      rw [List.map_cons, List.map_cons, String.intercalate_cons_cons, String.append_assoc]
      exact hall

/-- Parameters in parentheses show a list of names. -/
theorem shows_parameters {params : List Token} (h : ∀ t ∈ params, t.Fits [.identifier]) :
    ShowsForm ("(" ++ " ".intercalate (params.map Token.lexeme) ++ ")")
      (.list (params.map .ofToken)) := by
  have hopening : Shows Anywhere "(" Stack.enter := shows_opening
  have hclosing : Shows Delimited ")" Stack.leave := shows_closing
  have hall := (hopening.append (shows_names h) fun _ _ => trivial).append hclosing fun rest _ =>
    delimited_cons (by decide) rest
  simpa only [Stack.leave_put_enter] using hall

/-- A line with a whole list. -/
theorem shows_simple {kind : Kind} {sign : String} {texts : List String} (hp : p.Blank)
    (htext : text = opened sign texts ++ ")") (hsign : kind.spelling? = some sign)
    (hkind : kind ∉ [.leftParen, .rightParen]) (htexts : List.Forall₂ ShowsForm texts fs) :
    Shows Anywhere (p.line text) (Stack.put [.list (.glyph kind sign :: fs)]) := by
  rw [htext]
  exact shows_line hp (shows_list (shows_spelling hsign hkind) htexts)

/-- The sign of an `if` with an `else` shows three tokens, since a minus is not part of a word. -/
theorem shows_ifElse : Shows Delimited "if-else"
    (Stack.put [.glyph .kwIf "if", .glyph .minus "-", .glyph .kwElse "else"]) := by
  have hif : IsLexeme .kwIf "if".toList := isLexeme_spelling rfl
  have hminus : IsLexeme .minus "-".toList := isLexeme_spelling rfl
  have helse : ShowsForm "else" (.glyph .kwElse "else") := shows_spelling rfl (by decide)
  have hapart (rest : List Char) : Apart .kwIf ("-".toList ++ rest) := by
    rintro c ⟨⟩
    rfl
  exact ((shows_lexeme hif).append (shows_lexeme hminus) fun rest _ => hapart rest).append helse
    fun _ _ _ _ => rfl

/-- An opened list without operands. -/
theorem opened_nil (sign : String) : opened sign [] = "(" ++ sign := by
  simp [opened]

/-- An opened list with one operand. -/
theorem opened_one (sign text : String) : opened sign [text] = "(" ++ sign ++ " " ++ text := by
  simp [opened, String.append_assoc]

/-- An opened list with two operands. -/
theorem opened_two (sign text text' : String) :
    opened sign [text, text'] = "(" ++ sign ++ " " ++ text ++ " " ++ text' := by
  simp [opened, String.join_cons, String.append_assoc]

mutual

/-- **The outline of a statement shows its form.** -/
theorem Stmt.shows_outline : (s : Stmt) → s.Legible → ∀ {p : Printer}, p.Blank →
    Shows Anywhere (s.outline p) (Stack.put [s.form])
  | .expression e, h, _, hp => by
    have he := e.shows_outline (h.expr List.mem_cons_self)
    exact shows_simple hp (by rw [opened_one]; rfl) rfl (by decide) (.cons he .nil)
  | .print _ e, h, _, hp => by
    have he := e.shows_outline (h.expr List.mem_cons_self)
    exact shows_simple hp (by rw [opened_one]; rfl) rfl (by decide) (.cons he .nil)
  | .var name (some e), h, _, hp => by
    have hname : name.Fits [.identifier] := h.fits _ List.mem_cons_self
    have he := e.shows_outline (h.expr List.mem_cons_self)
    exact shows_simple hp (by rw [opened_two]; rfl) rfl (by decide)
      (.cons (shows_token hname (by decide)) (.cons he .nil))
  | .var name none, h, _, hp => by
    have hname : name.Fits [.identifier] := h.fits _ List.mem_cons_self
    exact shows_simple hp (by rw [opened_one]; rfl) rfl (by decide)
      (.cons (shows_token hname (by decide)) .nil)
  | .return _ (some e), h, _, hp => by
    have he := e.shows_outline (h.expr List.mem_cons_self)
    exact shows_simple hp (by rw [opened_one]; rfl) rfl (by decide) (.cons he .nil)
  | .return _ none, _, _, hp => shows_simple hp (by rw [opened_nil]; rfl) rfl (by decide) .nil
  | .block body, h, _, hp => by
    have hsign : ShowsForm "block" (.glyph .identifier "block") := shows_word rfl rfl rfl rfl
    have hbody := Stmt.show_outlines body (fun s hs => h.part hs) hp.deeper
    have hall := shows_enclosed hp hsign .nil hbody
    rw [opened_nil] at hall
    exact hall
  | .ifThen condition consequent, h, _, hp => by
    have hsign : ShowsForm "if" (.glyph .kwIf "if") := shows_spelling rfl (by decide)
    have hcondition := condition.shows_outline (h.expr List.mem_cons_self)
    have hconsequent := Stmt.shows_outline consequent (h.part List.mem_cons_self) hp.deeper
    have hall := shows_enclosed hp hsign (.cons hcondition .nil) hconsequent
    rw [opened_one] at hall
    exact hall
  | .ifElse condition consequent alternative, h, _, hp => by
    have hcondition := condition.shows_outline (h.expr List.mem_cons_self)
    have hconsequent := Stmt.shows_outline consequent (h.part List.mem_cons_self) hp.deeper
    have halternative := Stmt.shows_outline alternative (h.part (by simp [Stmt.parts])) hp.deeper
    have hboth := hconsequent.append halternative fun _ _ => trivial
    simp only [Stack.put_put] at hboth
    have hall := shows_enclosed hp shows_ifElse (.cons hcondition .nil) hboth
    rw [opened_one] at hall
    exact hall
  | .while condition body, h, _, hp => by
    have hsign : ShowsForm "while" (.glyph .kwWhile "while") := shows_spelling rfl (by decide)
    have hcondition := condition.shows_outline (h.expr List.mem_cons_self)
    have hbody := Stmt.shows_outline body (h.part List.mem_cons_self) hp.deeper
    have hall := shows_enclosed hp hsign (.cons hcondition .nil) hbody
    rw [opened_one] at hall
    exact hall
  | .function name params body, h, _, hp => by
    have hsign : ShowsForm "fun" (.glyph .kwFun "fun") := shows_spelling rfl (by decide)
    have hname : name.Fits [.identifier] := h.fits _ List.mem_cons_self
    have hparams : ∀ t ∈ params, t.Fits [.identifier] := fun t ht =>
      h.fits ([.identifier], t) (by simp [Stmt.places, ht])
    have hbody := Stmt.show_outlines body (fun s hs => h.part hs) hp.deeper
    have hall := shows_enclosed hp hsign
      (.cons (shows_token hname (by decide)) (.cons (shows_parameters hparams) .nil)) hbody
    have htext : opened "fun" [name.lexeme, "(" ++ " ".intercalate (params.map Token.lexeme) ++ ")"] =
        "(fun " ++ name.lexeme ++ " (" ++ " ".intercalate (params.map Token.lexeme) ++ ")" :=
      String.toList_inj.1 (by simp [opened_two])
    rw [htext] at hall
    exact hall

/-- The outlines of legible statements show their forms, one after the other, wherever they stand. -/
theorem Stmt.show_outlines : (ss : List Stmt) → (∀ s ∈ ss, s.Legible) → ∀ {p : Printer}, p.Blank →
    Shows Anywhere (Stmt.outlines ss p) (Stack.put (Stmt.forms ss))
  | [], _, _, _ => shows_nothing
  | s :: ss, h, _, hp => by
    have hs := Stmt.shows_outline s (h s List.mem_cons_self) hp
    have hss := Stmt.show_outlines ss (fun s hs => h s (List.mem_cons_of_mem _ hs)) hp
    have hall := hs.append hss fun _ _ => trivial
    simp only [Stack.put_put] at hall
    exact hall

end

end Treewalk
