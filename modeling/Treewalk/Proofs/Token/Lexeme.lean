import Treewalk.Proofs.Number.ReadBack
import Treewalk.Proofs.Token.Unbuffered

/-!
# Lexemes

`IsLexeme kind cs` is the lexical grammar: the characters `cs` spell a token of that kind. What the
scanner takes for a token is a lexeme (`isLexeme_of_stretch`), so all tokens of a text are
(`genuine_of_mem_scanAll`). Conversely the scanner takes a lexeme for one token, wherever it stands,
if what comes right after it cannot go on with it (`scan_lexeme`).

`Yields r vs r'` puts this together for a text that is written rather than read: a row of blanks and
lexemes that are kept apart. It knows nothing of the scanner, which reads such a text as the tokens
that were written (`Yields.scanAll_eq`).
-/

namespace Treewalk

/-- Whether a token of the kind cannot go on with a character, so that the character can stand right
behind it. -/
def Kind.endsBefore (c : Char) : Kind → Bool
  | .slash => c != '/'
  | .assign | .not | .greater | .less => c != '='
  | .number => !c.isDigit && c != '.'
  | .leftParen | .rightParen | .leftBrace | .rightBrace | .comma | .dot | .minus | .plus | .semicolon
  | .star | .notEqual | .equal | .greaterEqual | .lessEqual | .string | .eof => true
  | _ => !CharClass.isNamePart c

/-- The text of a kind that has only one. -/
def Kind.spelling? : Kind → Option String
  | .leftParen => some "("
  | .rightParen => some ")"
  | .leftBrace => some "\x7b"
  | .rightBrace => some "\x7d"
  | .comma => some ","
  | .dot => some "."
  | .minus => some "-"
  | .plus => some "+"
  | .semicolon => some ";"
  | .slash => some "/"
  | .star => some "*"
  | .not => some "!"
  | .notEqual => some "!="
  | .assign => some "="
  | .equal => some "=="
  | .greater => some ">"
  | .greaterEqual => some ">="
  | .less => some "<"
  | .lessEqual => some "<="
  | .kwAnd => some "and"
  | .kwClass => some "class"
  | .kwElse => some "else"
  | .kwFalse => some "false"
  | .kwFor => some "for"
  | .kwFun => some "fun"
  | .kwIf => some "if"
  | .kwNil => some "nil"
  | .kwOr => some "or"
  | .kwPrint => some "print"
  | .kwReturn => some "return"
  | .kwSuper => some "super"
  | .kwThis => some "this"
  | .kwTrue => some "true"
  | .kwVar => some "var"
  | .kwWhile => some "while"
  | .identifier | .string | .number | .eof => none

namespace Token

open CharClass

/-- The lexical grammar. -/
inductive IsLexeme : Kind → List Char → Prop where
  | single {ch : Char} {kind : Kind} (h : Kind.ofSingle? ch = some kind) : IsLexeme kind [ch]
  | slash : IsLexeme .slash ['/']
  | alone {ch : Char} {alone withEqual : Kind} (h : Kind.ofPair? ch = some (alone, withEqual)) :
      IsLexeme alone [ch]
  | withEqual {ch : Char} {alone withEqual : Kind} (h : Kind.ofPair? ch = some (alone, withEqual)) :
      IsLexeme withEqual [ch, '=']
  | string {value : List Char} (h : '"' ∉ value) : IsLexeme .string ('"' :: (value ++ ['"']))
  | number {cs : List Char} (h : Number.IsNumeral cs) : IsLexeme .number cs
  | word {ch : Char} {cs : List Char} (hstart : isNameStart ch) (hpart : ∀ c ∈ cs, isNamePart c) :
      IsLexeme (Kind.ofWord (String.ofList (ch :: cs))) (ch :: cs)

/-! ## What is read is a lexeme -/

/-- A digit and the tail of a number that follows it are a numeral. -/
theorem isNumeral_numberTail {ch : Char} (hch : ch.isDigit) (rest : List Char) :
    Number.IsNumeral (ch :: numberTail rest) := by
  have hdigits : ∀ c ∈ ch :: rest.takeWhile Char.isDigit, c.isDigit := by
    intro c hc
    rcases List.mem_cons.1 hc with rfl | hc
    · exact hch
    · exact List.mem_takeWhile_imp hc
  unfold numberTail fraction
  rw [← List.cons_append]
  split
  next d more heq =>
    by_cases hd : d.isDigit = true
    · rw [if_pos hd]
      refine .point (List.cons_ne_nil _ _) hdigits ?_ fun c hc => List.mem_takeWhile_imp hc
      rw [List.takeWhile_cons_of_pos hd]
      exact List.cons_ne_nil _ _
    · rw [if_neg hd, List.append_nil]
      exact .whole (List.cons_ne_nil _ _) hdigits
  next =>
    rw [List.append_nil]
    exact .whole (List.cons_ne_nil _ _) hdigits

/-- **What the scanner takes for a token is a lexeme** of its kind. -/
theorem isLexeme_of_stretch {ch : Char} {rest tail : List Char} {kind : Kind}
    (h : stretch ch rest = (.token kind, tail)) : IsLexeme kind (ch :: tail) := by
  unfold stretch at h
  split at h
  next hsingle =>
    cases h
    exact .single hsingle
  next =>
    split at h
    next hpair =>
      split at h <;> cases h
      · exact .withEqual hpair
      · exact .alone hpair
    next =>
      split at h
      next hquote =>
        subst hquote
        dsimp only at h
        split at h <;> cases h
        exact .string fun hmem => by simpa using List.mem_takeWhile_imp hmem
      next =>
        split at h
        next hdigit =>
          cases h
          exact .number (isNumeral_numberTail hdigit rest)
        next =>
          split at h
          next hname =>
            cases h
            exact .word hname fun c hc => List.mem_takeWhile_imp hc
          next =>
            split at h
            next hslash =>
              subst hslash
              cases h
              exact .slash
            next => cases h

/-! ## A lexeme that stands apart is read -/

/-- What comes next cannot be part of a token of the kind. -/
def Apart (kind : Kind) (rest : List Char) : Prop :=
  ∀ c, rest.head? = some c → kind.endsBefore c

/-- Of characters that all satisfy a test and a rest that does not begin with such a one, exactly the
characters are taken. -/
theorem takeWhile_append_of_stop {p : Char → Bool} {cs rest : List Char} (hcs : ∀ c ∈ cs, p c)
    (hrest : ∀ c, rest.head? = some c → p c = false) : (cs ++ rest).takeWhile p = cs := by
  rw [List.takeWhile_append_of_pos hcs]
  cases rest with
  | nil => exact List.append_nil cs
  | cons c rest => rw [List.takeWhile_cons_of_neg (by simp [hrest c rfl]), List.append_nil]

/-- Of characters that all satisfy a test and a rest that does not begin with such a one, exactly the
rest is left. -/
theorem dropWhile_append_of_stop {p : Char → Bool} {cs rest : List Char} (hcs : ∀ c ∈ cs, p c)
    (hrest : ∀ c, rest.head? = some c → p c = false) : (cs ++ rest).dropWhile p = rest := by
  rw [List.dropWhile_append_of_pos hcs]
  cases rest with
  | nil => rfl
  | cons c rest => rw [List.dropWhile_cons_of_neg (by simp [hrest c rfl])]

/-- What begins a name can go on with it. -/
theorem isNamePart_of_nameStart {ch : Char} (h : isNameStart ch) : isNamePart ch :=
  Bool.or_eq_true_iff.2 (.inl h)

/-- A digit can go on with a name. -/
theorem isNamePart_of_digit {ch : Char} (h : ch.isDigit) : isNamePart ch :=
  Bool.or_eq_true_iff.2 (.inr h)

/-- A digit, a letter and the underscore begin no other token. -/
theorem lead_of_namePart {ch : Char} (h : isNamePart ch) :
    Kind.ofSingle? ch = none ∧ Kind.ofPair? ch = none ∧ ch ≠ '"' ∧ ch ≠ '/' ∧ isBlank ch = false := by
  refine ⟨?_, ?_, ?_, ?_, ?_⟩
  · unfold Kind.ofSingle?
    split <;> first | rfl | exact absurd h (by decide)
  · unfold Kind.ofPair?
    split <;> first | rfl | exact absurd h (by decide)
  · rintro rfl
    exact absurd h (by decide)
  · rintro rfl
    exact absurd h (by decide)
  · by_contra hblank
    simp only [isBlank, Bool.not_eq_false, Bool.or_eq_true, beq_iff_eq] at hblank
    rcases hblank with ((rfl | rfl) | rfl) | rfl <;> exact absurd h (by decide)

/-- What begins a name is no digit. -/
theorem not_isDigit_of_nameStart {ch : Char} (h : isNameStart ch) : ch.isDigit = false := by
  simp only [isNameStart, Char.isAlpha, Char.isUpper, Char.isLower, Bool.or_eq_true, Bool.and_eq_true,
    decide_eq_true_eq, beq_iff_eq, UInt32.le_iff_toNat_le] at h
  simp only [Char.isDigit, Bool.and_eq_false_iff, decide_eq_false_iff_not, UInt32.le_iff_toNat_le]
  rcases h with h | rfl
  · simp at h ⊢
    omega
  · decide

/-- A numeral is taken whole if what follows is apart from it. -/
theorem numberTail_append {ch : Char} {tail rest : List Char}
    (h : Number.IsNumeral (ch :: tail)) (hrest : Apart .number rest) :
    ch.isDigit ∧ numberTail (tail ++ rest) = tail := by
  have hdigit : ∀ c, rest.head? = some c → c.isDigit = false := fun c hc => by
    simpa using (Bool.and_eq_true_iff.1 (hrest c hc)).1
  have hpoint : fraction rest = [] := by
    cases rest with
    | nil => rfl
    | cons c rest => exact fraction_of_ne (by simpa using (Bool.and_eq_true_iff.1 (hrest c rfl)).2) rest
  generalize hcs : ch :: tail = cs at h
  unfold numberTail
  cases h with
  | whole hds hdigits =>
    subst hcs
    have htail : ∀ c ∈ tail, c.isDigit := fun c hc => hdigits c (List.mem_cons_of_mem _ hc)
    rw [takeWhile_append_of_stop htail hdigit, dropWhile_append_of_stop htail hdigit, hpoint,
      List.append_nil]
    exact ⟨hdigits ch (List.mem_cons_self), rfl⟩
  | @point ds es hds hdigits hes hplaces =>
    obtain ⟨d, ds, rfl⟩ := List.exists_cons_of_ne_nil hds
    obtain ⟨e, es, rfl⟩ := List.exists_cons_of_ne_nil hes
    rw [List.cons_append] at hcs
    obtain ⟨rfl, rfl⟩ := List.cons.inj hcs
    have htail : ∀ c ∈ ds, c.isDigit := fun c hc => hdigits c (List.mem_cons_of_mem _ hc)
    have hstop : ∀ c, ('.' :: (e :: es ++ rest)).head? = some c → c.isDigit = false := by
      rintro c ⟨⟩
      decide
    refine ⟨hdigits ch (List.mem_cons_self), ?_⟩
    rw [List.append_assoc, List.cons_append, takeWhile_append_of_stop htail hstop,
      dropWhile_append_of_stop htail hstop, List.cons_append]
    rw [fraction_of_digit (hplaces e List.mem_cons_self), ← List.cons_append,
      takeWhile_append_of_stop hplaces hdigit]

/-- What can have `=` after it begins no other token, and goes on with nothing else. -/
theorem lead_of_pair {ch : Char} {alone withEqual : Kind}
    (h : Kind.ofPair? ch = some (alone, withEqual)) :
    Kind.ofSingle? ch = none ∧ isBlank ch = false ∧ ch ≠ '/' ∧
      ∀ c, alone.endsBefore c = (c != '=') := by
  unfold Kind.ofPair? at h
  split at h <;> cases h <;> exact ⟨rfl, rfl, by decide, fun _ => rfl⟩

/-- A word, be it a keyword or a name, ends before whatever cannot go on with a name. -/
theorem endsBefore_ofWord (word : String) (c : Char) :
    (Kind.ofWord word).endsBefore c = !isNamePart c := by
  have hall : ∀ entry ∈ Kind.keywords, entry.2.endsBefore c = !isNamePart c := by
    simp [Kind.keywords, Kind.endsBefore]
  rcases ofWord_cases word with hname | hmem
  · rw [hname]
    rfl
  · exact hall _ hmem

/-- **A lexeme that stands apart is taken as a whole.** -/
theorem stretch_of_isLexeme {kind : Kind} {ch : Char} {tail rest : List Char}
    (h : IsLexeme kind (ch :: tail)) (hrest : Apart kind rest) :
    stretch ch (tail ++ rest) = (.token kind, tail) := by
  generalize hcs : ch :: tail = cs at h
  cases h with
  | single hsingle =>
    cases hcs
    unfold stretch
    rw [hsingle]
  | slash =>
    cases hcs
    rfl
  | alone hpair =>
    cases hcs
    obtain ⟨hsingle, -, -, hends⟩ := lead_of_pair hpair
    have hnext : rest.head? ≠ some '=' := by
      intro heq
      have hend := hrest '=' heq
      rw [hends] at hend
      cases hend
    unfold stretch
    rw [hsingle, hpair]
    exact if_neg hnext
  | withEqual hpair =>
    cases hcs
    unfold stretch
    rw [(lead_of_pair hpair).1, hpair]
    rfl
  | @string value hvalue =>
    cases hcs
    have hstop : ∀ c, ('"' :: rest).head? = some c → (c != '"') = false := by
      rintro c ⟨⟩
      decide
    have hinside : ∀ c ∈ value, (c != '"') = true := fun c hc =>
      bne_iff_ne.2 fun heq => hvalue (heq ▸ hc)
    show (if '"' ∈ value ++ ['"'] ++ rest then _ else _) = _
    rw [if_pos (by simp), List.append_assoc, List.singleton_append,
      takeWhile_append_of_stop hinside hstop]
  | number hnumeral =>
    subst hcs
    obtain ⟨hdigit, htail⟩ := numberTail_append hnumeral hrest
    obtain ⟨hsingle, hpair, hquote, -⟩ := lead_of_namePart (isNamePart_of_digit hdigit)
    unfold stretch
    rw [hsingle, hpair]
    dsimp only
    rw [if_neg hquote, if_pos hdigit, htail]
  | word hstart hpart =>
    cases hcs
    obtain ⟨hsingle, hpair, hquote, -⟩ := lead_of_namePart (isNamePart_of_nameStart hstart)
    have hstop : ∀ c, rest.head? = some c → isNamePart c = false := fun c hc => by
      have hend := hrest c hc
      rw [endsBefore_ofWord] at hend
      simpa using hend
    unfold stretch
    rw [hsingle, hpair]
    dsimp only
    rw [if_neg hquote, if_neg (by simp [not_isDigit_of_nameStart hstart]), if_pos hstart,
      takeWhile_append_of_stop hpart hstop]

/-- How lexemes begin: with no blank, with a slash only if they are one, and with `=` only if they are
an operator with it. -/
theorem IsLexeme.lead {kind : Kind} {cs : List Char} (h : IsLexeme kind cs) :
    ∃ ch tail, cs = ch :: tail ∧ isBlank ch = false ∧ (ch = '/' → kind = .slash ∧ tail = []) ∧
      (ch = '=' → kind = .assign ∨ kind = .equal) := by
  have hword : ∀ {ch : Char} {tail : List Char}, isNamePart ch → ∃ ch' tail', ch :: tail = ch' :: tail' ∧
      isBlank ch' = false ∧ (ch' = '/' → kind = .slash ∧ tail' = []) ∧
        (ch' = '=' → kind = .assign ∨ kind = .equal) := by
    intro ch tail hpart
    obtain ⟨-, hpair, -, hslash, hblank⟩ := lead_of_namePart hpart
    refine ⟨_, _, rfl, hblank, fun heq => absurd heq hslash, ?_⟩
    rintro rfl
    cases hpair
  cases h with
  | @single ch kind hsingle =>
    refine ⟨ch, [], rfl, ?_⟩
    unfold Kind.ofSingle? at hsingle
    split at hsingle <;> cases hsingle <;> exact ⟨rfl, by decide, by decide⟩
  | slash => exact ⟨'/', [], rfl, rfl, fun _ => ⟨rfl, rfl⟩, by decide⟩
  | alone hpair =>
    obtain ⟨-, hblank, hslash, -⟩ := lead_of_pair hpair
    refine ⟨_, _, rfl, hblank, fun heq => absurd heq hslash, ?_⟩
    rintro rfl
    cases hpair
    exact .inl rfl
  | withEqual hpair =>
    obtain ⟨-, hblank, hslash, -⟩ := lead_of_pair hpair
    refine ⟨_, _, rfl, hblank, fun heq => absurd heq hslash, ?_⟩
    rintro rfl
    cases hpair
    exact .inr rfl
  | string => exact ⟨_, _, rfl, rfl, fun heq => absurd heq (by decide), by decide⟩
  | number hnumeral =>
    obtain ⟨ch, tail, rfl⟩ : ∃ ch tail, cs = ch :: tail := by
      cases hnumeral with
      | whole hds => exact List.exists_cons_of_ne_nil hds
      | point => exact List.exists_cons_of_ne_nil (by simp)
    have hend : Apart .number [] := fun c hc => by cases hc
    have hdigit := (numberTail_append hnumeral hend).1
    exact hword (isNamePart_of_digit hdigit)
  | word hstart => exact hword (isNamePart_of_nameStart hstart)

/-- No lexeme is of the kind of the end token. -/
theorem IsLexeme.kind_ne_eof {kind : Kind} {cs : List Char} (h : IsLexeme kind cs) : kind ≠ .eof := by
  rintro rfl
  generalize hkind : Kind.eof = kind at h
  cases h with
  | single hsingle =>
    subst hkind
    unfold Kind.ofSingle? at hsingle
    split at hsingle <;> cases hsingle
  | alone hpair =>
    subst hkind
    unfold Kind.ofPair? at hpair
    split at hpair <;> cases hpair
  | withEqual hpair =>
    subst hkind
    unfold Kind.ofPair? at hpair
    split at hpair <;> cases hpair
  | slash => cases hkind
  | string => cases hkind
  | number => cases hkind
  | word =>
    rcases ofWord_cases (String.ofList _) with hname | hkeyword
    · cases hkind.trans hname
    · rw [← hkind] at hkeyword
      exact absurd hkeyword (by simp [Kind.keywords])

/-- **The scanner reads a lexeme that stands apart as one token.** -/
theorem scan_lexeme {kind : Kind} {cs rest : List Char} (h : IsLexeme kind cs)
    (hrest : Apart kind rest) (p : Position) :
    Reader.scan ⟨p, cs ++ rest⟩ = (.ok (made kind p cs), ⟨p.past cs, rest⟩) := by
  obtain ⟨ch, tail, rfl, hblank, hslash, -⟩ := h.lead
  have hstart : (ch :: tail ++ rest).dropWhile isBlank = ch :: (tail ++ rest) :=
    List.dropWhile_cons_of_neg (by simp [hblank])
  have hnone : (ch :: tail ++ rest).takeWhile isBlank = [] :=
    List.takeWhile_cons_of_neg (by simp [hblank])
  have hcomment : Reader.startsComment (ch :: (tail ++ rest)) = false := by
    by_contra hc
    simp only [Reader.startsComment, Bool.not_eq_false, Bool.and_eq_true, decide_eq_true_eq,
      List.head?_cons, Option.some.injEq] at hc
    obtain ⟨rfl, rfl⟩ := hslash hc.1
    have hend := hrest '/' (List.head?_eq_getElem?.trans hc.2)
    cases hend
  rw [Reader.scan_stretch hstart hcomment, stretch_of_isLexeme h hrest]
  simp only [hnone, Position.past_nil, Verdict.result, List.drop_left]

/-- A string is what stands between two quotes, and has none itself. -/
theorem IsLexeme.eq_quoted {cs : List Char} (h : IsLexeme .string cs) :
    ∃ value, cs = '"' :: (value ++ ['"']) ∧ '"' ∉ value := by
  generalize hkind : Kind.string = kind at h
  cases h with
  | string hvalue => exact ⟨_, rfl, hvalue⟩
  | single hsingle =>
    subst hkind
    cases literalOf_ofSingle hsingle []
  | alone hpair =>
    subst hkind
    cases (literalOf_ofPair hpair []).1
  | withEqual hpair =>
    subst hkind
    cases (literalOf_ofPair hpair []).2
  | slash => cases hkind
  | number => cases hkind
  | @word ch cs =>
    have hnone := literalOf_ofWord (String.ofList (ch :: cs)) []
    rw [← hkind] at hnone
    cases hnone

/-! ## Kinds with one spelling -/

/-- A keyword is spelled as the table of keywords has it. -/
theorem spelling?_of_keyword : ∀ entry ∈ Kind.keywords, entry.2.spelling? = some entry.1 := by
  decide

/-- A lexeme of a kind that has only one text is this text. -/
theorem IsLexeme.eq_spelling {kind : Kind} {cs : List Char} {text : String} (h : IsLexeme kind cs)
    (htext : kind.spelling? = some text) : cs = text.toList := by
  cases h with
  | single hsingle =>
    unfold Kind.ofSingle? at hsingle
    split at hsingle <;> cases hsingle <;> cases htext <;> rfl
  | alone hpair =>
    unfold Kind.ofPair? at hpair
    split at hpair <;> cases hpair <;> cases htext <;> rfl
  | withEqual hpair =>
    unfold Kind.ofPair? at hpair
    split at hpair <;> cases hpair <;> cases htext <;> rfl
  | slash =>
    cases htext
    rfl
  | string => cases htext
  | number => cases htext
  | word =>
    rcases ofWord_cases (String.ofList _) with hname | hkeyword
    · rw [hname] at htext
      cases htext
    · have hspelling := spelling?_of_keyword _ hkeyword
      rw [htext] at hspelling
      rw [Option.some.inj hspelling, String.toList_ofList]

/-- The keywords are lexemes of their kinds. -/
theorem isLexeme_keyword {word : String} {kind : Kind} (h : (word, kind) ∈ Kind.keywords) :
    IsLexeme kind word.toList := by
  have hall : ∀ entry ∈ Kind.keywords, Kind.ofWord entry.1 = entry.2 ∧
      (entry.1.toList.head?.any isNameStart) ∧ entry.1.toList.tail.all isNamePart := by
    decide
  obtain ⟨hkind, hhead, htail⟩ := hall _ h
  obtain ⟨ch, hch, hstart⟩ := (Option.any_eq_true _ _).1 hhead
  obtain ⟨cs, hcs⟩ := List.head?_eq_some_iff.1 hch
  rw [hcs, List.tail_cons, List.all_eq_true] at htail
  have hword := IsLexeme.word hstart htail
  rwa [← hcs, String.ofList_toList, hkind] at hword

/-- The text of a kind that has only one is a lexeme of it. -/
theorem isLexeme_spelling {kind : Kind} {text : String} (htext : kind.spelling? = some text) :
    IsLexeme kind text.toList := by
  cases kind
  case identifier | string | number | eof => cases htext
  case slash =>
    cases htext
    exact .slash
  case leftParen | rightParen | leftBrace | rightBrace | comma | dot | minus | plus | semicolon | star =>
    cases htext
    exact .single rfl
  case not | assign | greater | less =>
    cases htext
    exact .alone rfl
  case notEqual | equal | greaterEqual | lessEqual =>
    cases htext
    exact .withEqual rfl
  all_goals
    cases htext
    exact isLexeme_keyword (by decide)

/-! ## The tokens of a text -/

/-- A token that is made of a lexeme. -/
structure Genuine (t : Token) : Prop where
  isLexeme : IsLexeme t.kind t.lexeme.toList
  literal_eq : t.literal = literalOf t.kind t.lexeme.toList

/-- A token that is made of a lexeme is genuine. -/
theorem genuine_made {kind : Kind} {cs : List Char} (h : IsLexeme kind cs) (p : Position) :
    (made kind p cs).Genuine := by
  constructor
  · show IsLexeme kind (String.ofList cs).toList
    rwa [String.toList_ofList]
  · show literalOf kind cs = literalOf kind (String.ofList cs).toList
    rw [String.toList_ofList]

/-- A genuine token of a kind with one spelling has this spelling. -/
theorem Genuine.lexeme_eq {t : Token} (h : t.Genuine) {text : String}
    (htext : t.kind.spelling? = some text) : t.lexeme = text :=
  String.toList_inj.1 (h.isLexeme.eq_spelling htext)

/-- The same token at another place. -/
def movedTo (t : Token) (p : Position) : Token :=
  { t with start := p, stop := p.past t.lexeme.toList }

/-- Made anew at another place, a genuine token is the same but for the place. -/
theorem Genuine.made_eq {t : Token} (h : t.Genuine) (p : Position) :
    made t.kind p t.lexeme.toList = t.movedTo p := by
  unfold made movedTo
  rw [String.ofList_toList, ← h.literal_eq]

/-- What the scanner reads is a genuine token or the end token. -/
theorem genuine_of_scan {r r' : Reader} {t : Token} (h : r.scan = (.ok t, r')) (hk : t.kind ≠ .eof) :
    t.Genuine := by
  fun_induction Reader.scan r with
  | case1 r p hr =>
    cases h
    exact absurd rfl hk
  | case2 r p ch rest hr hc hlt ih => exact ih h
  | case3 r p ch rest hr hc verdict tail hs =>
    have hresult := (Prod.mk.inj h).1
    cases verdict with
    | token kind =>
      cases hresult
      exact genuine_made (isLexeme_of_stretch hs) p
    | unexpected => cases hresult
    | unterminated => cases hresult

/-- **The tokens before the end are lexemes.** -/
theorem genuine_of_mem_scanAll {r : Reader} {t : Token} (h : t ∈ r.scanAll.1) (hk : t.kind ≠ .eof) :
    t.Genuine := by
  fun_induction Reader.scanAll r with
  | case1 r t' r' hs hk' =>
    rw [List.mem_singleton] at h
    exact absurd (h ▸ hk') hk
  | case2 r t' r' hs hk' hlt ts ds hall ih =>
    rcases List.mem_cons.1 h with rfl | h
    · exact genuine_of_scan hs hk
    · rw [hall] at ih
      exact ih h
  | case3 r e r' hs hlt ts ds hall ih =>
    rw [hall] at ih
    exact ih h

end Token

/-! ## Texts that are written -/

open Token CharClass

/-- Up to `r'` the text is a row of blanks and lexemes that stand apart, and spells the tokens. -/
inductive Yields : Reader → List Token → Reader → Prop where
  | nil {r : Reader} : Yields r [] r
  | blank {p : Position} {c : Char} {cs : List Char} {vs : List Token} {r : Reader}
      (hc : isBlank c) (h : Yields ⟨p.advance c, cs⟩ vs r) : Yields ⟨p, c :: cs⟩ vs r
  | token {p : Position} {kind : Kind} {cs rest : List Char} {vs : List Token} {r : Reader}
      (hcs : IsLexeme kind cs) (hrest : Apart kind rest) (h : Yields ⟨p.past cs, rest⟩ vs r) : Yields ⟨p, cs ++ rest⟩ (made kind p cs :: vs) r

namespace Yields

/-- Two rows of tokens, one written behind the other, are one row. -/
theorem append {r r' r'' : Reader} {us vs : List Token} (h : Yields r us r')
    (h' : Yields r' vs r'') : Yields r (us ++ vs) r'' := by
  induction h with
  | nil => exact h'
  | blank hc _ ih => exact .blank hc (ih h')
  | token hcs hrest _ ih => exact .token hcs hrest (ih h')

/-- A token with a fixed text. -/
theorem fixed (kind : Kind) {text : String} (htext : kind.spelling? = some text) {p : Position}
    {rest : List Char} (hrest : Apart kind rest) {vs : List Token} {r : Reader}
    (h : Yields ⟨p.past text.toList, rest⟩ vs r) :
    Yields ⟨p, text.toList ++ rest⟩ (made kind p text.toList :: vs) r :=
  .token (isLexeme_spelling htext) hrest h

/-- A token that was read before. -/
theorem again {t : Token} (ht : t.Genuine) {p : Position} {rest : List Char}
    (hrest : Apart t.kind rest) {vs : List Token} {r : Reader}
    (h : Yields ⟨p.past t.lexeme.toList, rest⟩ vs r) :
    Yields ⟨p, t.lexeme.toList ++ rest⟩ (t.movedTo p :: vs) r := by
  rw [← ht.made_eq p]
  exact .token ht.isLexeme hrest h

/-- **What is written is read.** -/
theorem scanAll_eq {r r' : Reader} {vs : List Token} (h : Yields r vs r') :
    r.scanAll = (vs ++ r'.scanAll.1, r'.scanAll.2) := by
  induction h with
  | nil => rfl
  | blank hc _ ih => exact (Reader.scanAll_congr (Reader.scan_blank hc)).trans ih
  | token hcs hrest _ ih =>
    rw [Reader.scanAll_token (scan_lexeme hcs hrest _) hcs.kind_ne_eof, ih]
    rfl

end Yields

end Treewalk
