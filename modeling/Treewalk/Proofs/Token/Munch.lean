import Treewalk.Proofs.Token.Lexeme

/-!
# The scanner takes the longest lexeme

`Lexical kind cs` is the lexical grammar again, this time kind by kind and without the tables of the
scanner: a kind that has one spelling is spelled so, and of the others it says which characters they
are made of. It agrees with `IsLexeme` (`isLexeme_iff`).

Blanks and comments are skipped first (`Trivia`), up to a text that begins with neither (`Ready`). Of
such a text the scanner takes the longest beginning that is a lexeme of any kind, and fails exactly if
there is none (`scan_takes_longest`). The argument is one comparison: whatever lexeme stands at the
head of a text, the stretch that the scanner takes there is a token and no shorter
(`IsLexeme.stretch_reaches`).
-/

namespace Treewalk

namespace Token

open CharClass

/-! ## The lexical grammar, kind by kind -/

/-- A letter or the underscore. -/
def NameStart (c : Char) : Prop :=
  ('a' ≤ c ∧ c ≤ 'z') ∨ ('A' ≤ c ∧ c ≤ 'Z') ∨ c = '_'

/-- A letter, the underscore or a digit. -/
def NamePart (c : Char) : Prop :=
  NameStart c ∨ ('0' ≤ c ∧ c ≤ '9')

/-- What names and keywords look like. -/
def IsWord : List Char → Prop
  | [] => False
  | c :: cs => NameStart c ∧ ∀ d ∈ cs, NamePart d

/-- The characters spell a token of the kind. A name is a word that spells no other kind. -/
def Lexical : Kind → List Char → Prop
  | .identifier, cs => IsWord cs ∧ ∀ kind : Kind, kind.spelling? ≠ some (String.ofList cs)
  | .string, cs => ∃ value, '"' ∉ value ∧ cs = '"' :: (value ++ ['"'])
  | .number, cs => Number.IsNumeral cs
  | kind, cs => kind.spelling? = some (String.ofList cs)

/-- The test for what begins a name, as the grammar has it. -/
theorem isNameStart_iff (c : Char) : isNameStart c ↔ NameStart c := by
  simp only [isNameStart, NameStart, Char.isAlpha, Char.isUpper, Char.isLower, Char.le_def, ge_iff_le,
    Bool.or_eq_true, Bool.and_eq_true, decide_eq_true_eq, beq_iff_eq]
  tauto

/-- The test for what goes on with a name, as the grammar has it. -/
theorem isNamePart_iff (c : Char) : isNamePart c ↔ NamePart c := by
  simp only [isNamePart, NamePart, Bool.or_eq_true, isNameStart_iff, Char.isDigit, Char.le_def,
    ge_iff_le, Bool.and_eq_true, decide_eq_true_eq]

/-- Every token may stand at the end of a text. -/
theorem apart_nil (kind : Kind) : Apart kind [] := by
  intro c hc
  simp at hc

/-- Characters spell at most one kind. -/
theorem IsLexeme.kind_unique {kind kind' : Kind} {cs : List Char} (h : IsLexeme kind cs)
    (h' : IsLexeme kind' cs) : kind = kind' := by
  obtain ⟨ch, tail, rfl, -⟩ := h.lead
  have hread := (stretch_of_isLexeme h (apart_nil kind)).symm.trans
    (stretch_of_isLexeme h' (apart_nil kind'))
  simpa using hread

/-- A name is spelled as no keyword, and as no other kind. -/
theorem not_spelled_of_name {cs : List Char} (h : IsLexeme .identifier cs) (kind : Kind) :
    kind.spelling? ≠ some (String.ofList cs) := by
  intro hspelling
  have hlexeme := isLexeme_spelling hspelling
  rw [String.toList_ofList] at hlexeme
  rw [hlexeme.kind_unique h] at hspelling
  simp [Kind.spelling?] at hspelling

/-- A kind with one spelling is spelled so in the grammar as well. -/
theorem lexical_of_spelling {kind : Kind} {cs : List Char}
    (h : kind.spelling? = some (String.ofList cs)) : Lexical kind cs := by
  cases kind
  case identifier | string | number | eof => simp [Kind.spelling?] at h
  all_goals exact h

/-- A word that is the spelling of no kind is taken for a name. -/
theorem ofWord_eq_identifier {cs : List Char}
    (h : ∀ kind : Kind, kind.spelling? ≠ some (String.ofList cs)) :
    Kind.ofWord (String.ofList cs) = .identifier := by
  apply (ofWord_cases (String.ofList cs)).resolve_right
  intro hkeyword
  exact h _ (spelling?_of_keyword _ hkeyword)

/-- Every lexeme is lexical. -/
theorem lexical_of_isLexeme {kind : Kind} {cs : List Char} (h : IsLexeme kind cs) :
    Lexical kind cs := by
  have hspelled : ∀ text, kind.spelling? = some text → Lexical kind cs := by
    intro text htext
    apply lexical_of_spelling
    rw [h.eq_spelling htext, String.ofList_toList, htext]
  cases h with
  | single hsingle =>
    unfold Kind.ofSingle? at hsingle
    split at hsingle <;> simp at hsingle <;> subst hsingle <;> exact hspelled _ rfl
  | slash => exact hspelled _ rfl
  | alone hpair | withEqual hpair =>
    unfold Kind.ofPair? at hpair
    split at hpair <;> simp at hpair <;> obtain ⟨rfl, rfl⟩ := hpair <;> exact hspelled _ rfl
  | string hvalue => exact ⟨_, hvalue, rfl⟩
  | number hnumeral => exact hnumeral
  | @word ch cs hstart hpart =>
    have hlexeme := IsLexeme.word hstart hpart
    rcases ofWord_cases (String.ofList (ch :: cs)) with hname | hkeyword
    · rw [hname] at hlexeme ⊢
      refine ⟨⟨(isNameStart_iff ch).1 hstart, fun d hd => ?_⟩, not_spelled_of_name hlexeme⟩
      exact (isNamePart_iff d).1 (hpart d hd)
    · exact hspelled _ (spelling?_of_keyword _ hkeyword)

/-- Whatever is lexical is a lexeme. -/
theorem isLexeme_of_lexical {kind : Kind} {cs : List Char} (h : Lexical kind cs) :
    IsLexeme kind cs := by
  have hspelled : kind.spelling? = some (String.ofList cs) → IsLexeme kind cs := by
    intro hspelling
    simpa using isLexeme_spelling hspelling
  cases kind
  case identifier =>
    obtain ⟨hword, hnone⟩ := h
    cases cs with
    | nil => exact hword.elim
    | cons ch cs =>
      rw [← ofWord_eq_identifier hnone]
      apply IsLexeme.word
      · exact (isNameStart_iff ch).2 hword.1
      · intro d hd
        exact (isNamePart_iff d).2 (hword.2 d hd)
  case string =>
    obtain ⟨value, hvalue, rfl⟩ := h
    exact .string hvalue
  case number => exact .number h
  all_goals exact hspelled h

/-- **The two lexical grammars are the same.** -/
theorem isLexeme_iff {kind : Kind} {cs : List Char} : IsLexeme kind cs ↔ Lexical kind cs :=
  ⟨lexical_of_isLexeme, isLexeme_of_lexical⟩

/-! ## No lexeme reaches further than the stretch that is taken -/

/-- A beginning that satisfies a test throughout is no longer than the longest such beginning. -/
theorem length_le_takeWhile {p : Char → Bool} {cs rest : List Char} (hcs : ∀ c ∈ cs, p c)
    (h : cs <+: rest) : cs.length ≤ (rest.takeWhile p).length := by
  obtain ⟨more, rfl⟩ := h
  rw [List.takeWhile_append_of_pos hcs, List.length_append]
  omega

/-- A numeral at the head of a text is no longer than the one that is taken there. -/
theorem length_le_numberTail {ch : Char} {tail rest : List Char} (h : Number.IsNumeral (ch :: tail))
    (hrest : tail <+: rest) : tail.length ≤ (numberTail rest).length := by
  generalize hcs : ch :: tail = cs at h
  unfold numberTail
  rw [List.length_append]
  cases h with
  | whole hds hdigits =>
    subst hcs
    have hle := length_le_takeWhile (fun c hc => hdigits c (List.mem_cons_of_mem _ hc)) hrest
    omega
  | @point ds es hds hdigits hes hplaces =>
    obtain ⟨d, ds, rfl⟩ := List.exists_cons_of_ne_nil hds
    obtain ⟨e, es, rfl⟩ := List.exists_cons_of_ne_nil hes
    rw [List.cons_append] at hcs
    obtain ⟨rfl, rfl⟩ := List.cons.inj hcs
    obtain ⟨more, rfl⟩ := hrest
    have htail : ∀ c ∈ ds, c.isDigit := fun c hc => hdigits c (List.mem_cons_of_mem _ hc)
    have hstop : ∀ c, ('.' :: (e :: es ++ more)).head? = some c → c.isDigit = false := by
      rintro c ⟨⟩
      decide
    have hle := length_le_takeWhile hplaces (List.prefix_append (e :: es) more)
    rw [List.append_assoc, List.cons_append, takeWhile_append_of_stop htail hstop,
      dropWhile_append_of_stop htail hstop, List.cons_append,
      fraction_of_digit (hplaces e List.mem_cons_self), ← List.cons_append]
    simp only [List.length_append, List.length_cons] at hle ⊢
    omega

/-- **Whatever lexeme stands at the head of a text, the scanner takes a token that is no shorter.** -/
theorem IsLexeme.stretch_reaches {kind : Kind} {ch : Char} {tail rest : List Char}
    (h : IsLexeme kind (ch :: tail)) (hrest : tail <+: rest) :
    ∃ kind' tail', stretch ch rest = (.token kind', tail') ∧ tail.length ≤ tail'.length := by
  generalize hcs : ch :: tail = cs at h
  cases h with
  | single hsingle =>
    obtain ⟨rfl, rfl⟩ := List.cons.inj hcs
    exact ⟨kind, [], by simp [stretch, hsingle], le_rfl⟩
  | slash =>
    obtain ⟨rfl, rfl⟩ := List.cons.inj hcs
    exact ⟨_, [], stretch_slash rest, le_rfl⟩
  | @alone _ _ longer hpair =>
    obtain ⟨rfl, rfl⟩ := List.cons.inj hcs
    by_cases hnext : rest.head? = some '='
    · exact ⟨longer, ['='], by simp [stretch, (lead_of_pair hpair).1, hpair, hnext], by simp⟩
    · exact ⟨kind, [], by simp [stretch, (lead_of_pair hpair).1, hpair, hnext], le_rfl⟩
  | withEqual hpair =>
    obtain ⟨rfl, rfl⟩ := List.cons.inj hcs
    obtain ⟨more, rfl⟩ := hrest
    exact ⟨kind, ['='], by simp [stretch, (lead_of_pair hpair).1, hpair], le_rfl⟩
  | @string value hvalue =>
    obtain ⟨rfl, rfl⟩ := List.cons.inj hcs
    obtain ⟨more, rfl⟩ := hrest
    have hapart : Apart .string more := fun _ _ => rfl
    exact ⟨_, _, stretch_of_isLexeme (.string hvalue) hapart, le_rfl⟩
  | number hnumeral =>
    subst hcs
    have hdigit := (numberTail_append hnumeral (apart_nil .number)).1
    obtain ⟨hsingle, hpair, hquote, -⟩ := lead_of_namePart (isNamePart_of_digit hdigit)
    refine ⟨.number, _, ?_, length_le_numberTail hnumeral hrest⟩
    simp [stretch, hsingle, hpair, hquote, hdigit]
  | word hstart hpart =>
    obtain ⟨rfl, rfl⟩ := List.cons.inj hcs
    obtain ⟨hsingle, hpair, hquote, -⟩ := lead_of_namePart (isNamePart_of_nameStart hstart)
    refine ⟨Kind.ofWord (String.ofList (ch :: rest.takeWhile isNamePart)), _, ?_,
      length_le_takeWhile hpart hrest⟩
    simp [stretch, hsingle, hpair, hquote, hstart, not_isDigit_of_nameStart hstart]

/-- The tail of a number is a beginning of what is left. -/
theorem numberTail_begins (rest : List Char) : numberTail rest <+: rest := by
  have hfraction : ∀ cs, fraction cs <+: cs := by
    intro cs
    unfold fraction
    split
    next d more =>
      split
      · exact List.cons_prefix_cons.2 ⟨rfl, List.takeWhile_prefix _⟩
      · exact List.nil_prefix
    next => exact List.nil_prefix
  have hsplit : rest.takeWhile Char.isDigit ++ rest.dropWhile Char.isDigit = rest :=
    List.takeWhile_append_dropWhile
  conv_rhs => rw [← hsplit]
  exact (List.prefix_append_right_inj _).2 (hfraction _)

/-- If there is a quote further on, what is before it is, with the quote, a beginning of what is left. -/
theorem closing_begins {rest : List Char} (h : '"' ∈ rest) :
    rest.takeWhile (· != '"') ++ ['"'] <+: rest := by
  have hclosed : rest.dropWhile (· != '"') ≠ [] := by
    intro hnil
    have hnone := List.dropWhile_eq_nil_iff.1 hnil '"' h
    simp at hnone
  obtain ⟨c, more, hmore⟩ := List.exists_cons_of_ne_nil hclosed
  have hhead := List.head?_dropWhile_not (· != '"') rest
  obtain rfl : c = '"' := by simpa [hmore] using hhead
  refine ⟨more, ?_⟩
  rw [List.append_assoc, List.singleton_append, ← hmore, List.takeWhile_append_dropWhile]

/-- A stretch is made of the characters that come next. -/
theorem stretch_begins (ch : Char) (rest : List Char) : (stretch ch rest).2 <+: rest := by
  unfold stretch
  split
  · exact List.nil_prefix
  · split
    · split
      next hhead =>
        obtain ⟨more, rfl⟩ := List.head?_eq_some_iff.1 hhead
        exact List.prefix_append ['='] more
      next => exact List.nil_prefix
    · split_ifs with hquote hmem
      · exact closing_begins hmem
      · exact List.takeWhile_prefix _
      · exact numberTail_begins rest
      · exact List.takeWhile_prefix _
      · exact List.nil_prefix
      · exact List.nil_prefix

/-- A stretch is a beginning of what is left. -/
theorem stretch_append_drop (ch : Char) (rest : List Char) :
    (stretch ch rest).2 ++ rest.drop (stretch ch rest).2.length = rest := by
  exact (List.prefix_iff_eq_append.1 (stretch_begins ch rest))

/-- A quote with no other one behind it is never closed, whatever follows it. -/
theorem stretch_of_open {rest : List Char} (h : '"' ∉ rest) :
    stretch '"' rest = (.unterminated, rest) := by
  have hinside : rest.takeWhile (· != '"') = rest := by
    rw [List.takeWhile_eq_self_iff]
    intro c hc
    simpa using ne_of_mem_of_not_mem hc h
  simp [stretch, Kind.ofSingle?, Kind.ofPair?, h, hinside]

/-- What begins with a quote is never closed exactly if there is no other quote. -/
theorem stretch_unterminated_iff {ch : Char} {rest : List Char} :
    (stretch ch rest).1 = .unterminated ↔ ch = '"' ∧ '"' ∉ rest := by
  constructor
  · intro h
    unfold stretch at h
    split at h
    · simp at h
    · split at h
      · split at h <;> simp at h
      · split at h
        next hquote =>
          refine ⟨hquote, fun hmem => ?_⟩
          simp [hmem] at h
        next => split_ifs at h
  · rintro ⟨rfl, hrest⟩
    rw [stretch_of_open hrest]

/-- Whether a character is unexpected does not depend on what follows it. -/
theorem stretch_unexpected_congr {ch : Char} {rest : List Char} (rest' : List Char)
    (h : (stretch ch rest).1 = .unexpected) : stretch ch rest' = (.unexpected, []) := by
  unfold stretch at h ⊢
  split at h
  · simp at h
  · split at h
    · split at h <;> simp at h
    · split at h
      · dsimp only at h
        split at h <;> simp at h
      · split_ifs at h ⊢
        rfl

/-- A character is unexpected exactly if no lexeme begins with it. -/
theorem stretch_unexpected_iff {ch : Char} {rest : List Char} :
    (stretch ch rest).1 = .unexpected ↔ ∀ kind cs, ¬IsLexeme kind (ch :: cs) := by
  constructor
  · intro h kind cs hlexeme
    obtain ⟨kind', tail', hstretch, -⟩ := hlexeme.stretch_reaches (List.prefix_refl cs)
    simp [stretch_unexpected_congr cs h] at hstretch
  · intro h
    rcases hstretch : stretch ch rest with ⟨verdict, tail⟩
    cases verdict with
    | token kind => exact absurd (isLexeme_of_stretch hstretch) (h kind tail)
    | unexpected => rfl
    | unterminated =>
      have hquote := stretch_unterminated_iff.1 (congrArg Prod.fst hstretch)
      have hempty : IsLexeme .string ('"' :: ([] ++ ['"'])) := .string (by simp)
      exact absurd (hquote.1 ▸ hempty) (h _ _)

end Token

/-! ## What is skipped -/

open Token CharClass

/-- The characters that only separate. -/
def blanks : List Char :=
  [' ', '\t', '\r', '\n']

/-- At the end of a line or of the text. -/
def EndsLine (cs : List Char) : Prop :=
  ∀ c, cs.head? = some c → c = '\n'

/-- Blanks and comments up to where `rest` begins. A comment reaches to the end of its line. -/
inductive Trivia (rest : List Char) : List Char → Prop where
  | nil : Trivia rest []
  | blank {c : Char} {cs : List Char} (hc : c ∈ blanks) (h : Trivia rest cs) : Trivia rest (c :: cs)
  | comment {text cs : List Char} (htext : '\n' ∉ text) (hend : EndsLine (cs ++ rest))
      (h : Trivia rest cs) : Trivia rest ('/' :: '/' :: text ++ cs)

/-- A text that begins neither with a blank nor with a comment. -/
structure Ready (rest : List Char) : Prop where
  not_blank : ∀ c, rest.head? = some c → c ∉ blanks
  not_comment : ¬['/', '/'] <+: rest

/-- The test for blanks, as a list of characters. -/
theorem isBlank_iff (c : Char) : isBlank c ↔ c ∈ blanks := by
  simp [isBlank, blanks, or_assoc]

/-- More blanks in front are skipped as well. -/
theorem Trivia.blanks_append {rest cs bs : List Char} (hbs : ∀ c ∈ bs, isBlank c)
    (h : Trivia rest cs) : Trivia rest (bs ++ cs) := by
  induction bs with
  | nil => exact h
  | cons b bs ih =>
    rw [List.forall_mem_cons] at hbs
    exact .blank ((isBlank_iff b).1 hbs.1) (ih hbs.2)

/-- What is left behind a line begins with a line feed, if there is anything left. -/
theorem endsLine_dropWhile (cs : List Char) : EndsLine (cs.dropWhile (· != '\n')) := by
  intro c hc
  have hhead := List.head?_dropWhile_not (· != '\n') cs
  rw [hc] at hhead
  simpa using hhead

namespace Reader

/-- The test for comments, as two slashes at the head of a text. -/
theorem startsComment_iff (rest : List Char) : startsComment rest ↔ ['/', '/'] <+: rest := by
  rcases rest with _ | ⟨a, _ | ⟨b, rest⟩⟩ <;>
    simp [startsComment, List.cons_prefix_cons, @eq_comm Char '/']

/-- What the scanner makes of a text at a position, if it begins neither with a blank nor with a
comment. -/
def scanAt (p : Position) : List Char → Except LexicalError Token × Reader
  | [] => (.ok (made .eof p []), ⟨p, []⟩)
  | ch :: more => ((stretch ch more).1.result p ch (stretch ch more).2,
      ⟨p.past (ch :: (stretch ch more).2), more.drop (stretch ch more).2.length⟩)

/-- Behind the blanks, where no comment begins, there is nothing left to skip. -/
theorem ready_of_dropWhile {cs rest : List Char} {ch : Char}
    (h : cs.dropWhile isBlank = ch :: rest) (hcomment : ¬startsComment (ch :: rest)) :
    Ready (ch :: rest) := by
  constructor
  · intro c hc
    have hhead := List.head?_dropWhile_not isBlank cs
    rw [h, hc] at hhead
    rw [← isBlank_iff]
    simpa using hhead
  · rwa [startsComment_iff] at hcomment

/-- **Blanks and comments are skipped, then comes one stretch of text or the end.** -/
theorem exists_scan_eq (r : Reader) : ∃ skipped rest, r.rest = skipped ++ rest ∧
    Trivia rest skipped ∧ Ready rest ∧ r.scan = scanAt (r.position.past skipped) rest := by
  -- along the recursion of the scanner, which goes on behind each comment
  fun_induction scan r with
  | case1 r p h =>
    have hblank : ∀ c ∈ r.rest, isBlank c := List.dropWhile_eq_nil_iff.1 h
    have hall : p = r.position.past r.rest := by
      simp only [p, List.takeWhile_eq_self_iff.2 hblank]
    refine ⟨r.rest, [], by simp, ?_, ⟨by simp, by simp⟩, by simp [scanAt, hall]⟩
    simpa using Trivia.nil.blanks_append hblank
  | case2 r p ch rest h hc hlt ih =>
    obtain ⟨skipped, after, hsplit, htrivia, hready, hscan⟩ := ih
    obtain ⟨more, hmore⟩ := (startsComment_iff _).1 hc
    rw [List.cons_append, List.singleton_append] at hmore
    obtain ⟨rfl, rfl⟩ := List.cons.inj hmore.symm
    have hslash : (('/' : Char) != '\n') = true := rfl
    have hblank : ∀ c ∈ r.rest.takeWhile isBlank, isBlank c := fun c hc => List.mem_takeWhile_imp hc
    have hline : '\n' ∉ more.takeWhile (· != '\n') := fun hmem => by
      simpa using List.mem_takeWhile_imp hmem
    simp only [List.takeWhile_cons, List.dropWhile_cons, hslash, if_true] at hsplit hscan ⊢
    refine ⟨r.rest.takeWhile isBlank ++ ('/' :: '/' :: more.takeWhile (· != '\n') ++ skipped), after,
      ?_, ?_, hready, ?_⟩
    · calc r.rest = r.rest.takeWhile isBlank ++ r.rest.dropWhile isBlank :=
            List.takeWhile_append_dropWhile.symm
        _ = r.rest.takeWhile isBlank ++
              ('/' :: '/' :: (more.takeWhile (· != '\n') ++ more.dropWhile (· != '\n'))) := by
            rw [h, List.takeWhile_append_dropWhile]
        _ = _ := by rw [hsplit]; simp
    · refine (Trivia.comment hline ?_ htrivia).blanks_append hblank
      rw [← hsplit]
      exact endsLine_dropWhile more
    · rw [hscan]
      simp [p, Position.past_append]
  | case3 r p ch rest h hc verdict tail hs =>
    have hblank : ∀ c ∈ r.rest.takeWhile isBlank, isBlank c := fun c hc => List.mem_takeWhile_imp hc
    refine ⟨r.rest.takeWhile isBlank, ch :: rest, ?_, ?_, ready_of_dropWhile h hc, ?_⟩
    · rw [← h, List.takeWhile_append_dropWhile]
    · simpa using Trivia.nil.blanks_append hblank
    · simp [scanAt, hs, p]

end Reader

/-! ## The longest lexeme -/

namespace Token

/-- The longest beginning of a text that is a lexeme, and its kind. -/
structure LongestLexeme (rest : List Char) (kind : Kind) (cs : List Char) : Prop where
  lexical : Lexical kind cs
  begins : cs <+: rest
  longest : ∀ kind' cs', Lexical kind' cs' → cs' <+: rest → cs'.length ≤ cs.length

/-- A string is worth what stands between its quotes, a number what its digits denote, and no other
token is worth anything. -/
def ValueOfLexeme (t : Token) : Prop :=
  match t.kind with
  | .string => ∃ value, t.lexeme = "\"" ++ value ++ "\"" ∧ t.literal = some (.string value)
  | .number => t.literal = some (.number (Number.ofNumeral t.lexeme.toList))
  | _ => t.literal = none

/-- A lexeme or a comment can begin with the character. -/
def Opens (c : Char) : Prop :=
  ∃ cs, (∃ kind, Lexical kind (c :: cs)) ∨ ['/', '/'] <+: c :: cs

/-- What a scanner should make of a text that begins neither with a blank nor with a comment: its
outcome, and the text that it leaves. -/
structure Munches (rest : List Char) (result : Except LexicalError Token) (left : List Char) :
    Prop where
  /-- The end is found at the end, and nowhere else. -/
  finish : (∃ t, result = .ok t ∧ t.kind = .eof) ↔ rest = []
  /-- There is a token if there is a lexeme. -/
  token : (∃ t, result = .ok t ∧ t.kind ≠ .eof) ↔ ∃ kind cs, Lexical kind cs ∧ cs <+: rest
  /-- It is the longest one. -/
  longest : ∀ t, result = .ok t → t.kind ≠ .eof →
    LongestLexeme rest t.kind t.lexeme.toList ∧ rest = t.lexeme.toList ++ left
  value : ∀ t, result = .ok t → t.ValueOfLexeme
  unexpected : ∀ c, (∃ p, result = .error (.unexpectedCharacter p c)) ↔
    rest.head? = some c ∧ ¬Opens c
  unterminated : (∃ p, result = .error (.unterminatedString p)) ↔
    ∃ inside, rest = '"' :: inside ∧ '"' ∉ inside

/-- A character opens something exactly if some lexeme begins with it, since a comment begins with what
is a lexeme itself. -/
theorem opens_iff (c : Char) : Opens c ↔ ∃ kind cs, IsLexeme kind (c :: cs) := by
  simp only [Opens, isLexeme_iff]
  constructor
  · rintro ⟨cs, ⟨kind, h⟩ | h⟩
    · exact ⟨kind, cs, h⟩
    · obtain ⟨rfl, -⟩ := List.cons_prefix_cons.1 h
      exact ⟨.slash, [], rfl⟩
  · rintro ⟨kind, cs, h⟩
    exact ⟨cs, .inl ⟨kind, h⟩⟩

/-- The value of a token that is made of a lexeme is the one that its lexeme stands for. -/
theorem valueOfLexeme_made {kind : Kind} {cs : List Char} (h : IsLexeme kind cs) (p : Position) :
    (made kind p cs).ValueOfLexeme := by
  unfold ValueOfLexeme
  rcases hkind : (made kind p cs).kind
  case string =>
    obtain ⟨value, -, rfl⟩ : Lexical .string cs := by
      rw [← show kind = .string from hkind]
      exact lexical_of_isLexeme h
    refine ⟨String.ofList value, ?_, ?_⟩
    · show String.ofList ('"' :: (value ++ ['"'])) = _
      apply String.toList_inj.1
      simp
    · simp [made, show kind = .string from hkind, literalOf]
  case number => simp [made, show kind = .number from hkind, literalOf]
  all_goals
    rw [show kind = _ from hkind]
    rfl

/-! ## The scanner does so -/

variable {p : Position} {ch : Char} {more tail : List Char}

/-- Where a token is taken, the longest lexeme is. -/
theorem munches_token {kind : Kind} (h : stretch ch more = (.token kind, tail)) :
    Munches (ch :: more) (Verdict.result p ch tail (.token kind)) (more.drop tail.length) := by
  have hlexeme := isLexeme_of_stretch h
  have hlexical := lexical_of_isLexeme hlexeme
  have hsplit : ch :: more = ch :: tail ++ more.drop tail.length := by
    simpa [h] using (stretch_append_drop ch more).symm
  have hbegins : ch :: tail <+: ch :: more := ⟨_, hsplit.symm⟩
  refine ⟨?_, ?_, ?_, ?_, ?_, ?_⟩
  · simp [Verdict.result, made, hlexeme.kind_ne_eof]
  · constructor
    · rintro -
      exact ⟨kind, ch :: tail, hlexical, hbegins⟩
    · rintro -
      exact ⟨_, rfl, hlexeme.kind_ne_eof⟩
  · rintro t ⟨⟩ -
    simp only [made, String.toList_ofList]
    refine ⟨⟨hlexical, hbegins, fun kind' cs' hcs' hbegins' => ?_⟩, hsplit⟩
    obtain ⟨ch', tail', rfl, -⟩ := (isLexeme_of_lexical hcs').lead
    obtain ⟨rfl, htail'⟩ := List.cons_prefix_cons.1 hbegins'
    obtain ⟨kind'', tail'', hstretch, hle⟩ := (isLexeme_of_lexical hcs').stretch_reaches htail'
    rw [h] at hstretch
    obtain ⟨-, rfl⟩ := Prod.mk.inj hstretch
    simpa using hle
  · rintro t ⟨⟩
    exact valueOfLexeme_made hlexeme p
  · intro c
    constructor
    · rintro ⟨q, ⟨⟩⟩
    · rintro ⟨hc, hopens⟩
      obtain rfl : ch = c := by simpa using hc
      exact absurd ((opens_iff ch).2 ⟨kind, tail, hlexeme⟩) hopens
  · constructor
    · rintro ⟨q, ⟨⟩⟩
    · rintro ⟨inside, hinside, hquote⟩
      obtain ⟨rfl, rfl⟩ := List.cons.inj hinside
      have hverdict := stretch_unterminated_iff.2 ⟨rfl, hquote⟩
      simp [h] at hverdict

/-- A stretch that is no token begins with no lexeme. -/
theorem not_lexical_of_stretch {verdict : Verdict} (h : stretch ch more = (verdict, tail))
    (hverdict : ∀ kind, verdict ≠ .token kind) :
    ¬∃ kind cs, Lexical kind cs ∧ cs <+: ch :: more := by
  rintro ⟨kind, cs, hlexical, hcs⟩
  have hlexeme := isLexeme_of_lexical hlexical
  obtain ⟨ch', tail', rfl, -⟩ := hlexeme.lead
  obtain ⟨rfl, htail'⟩ := List.cons_prefix_cons.1 hcs
  obtain ⟨kind', tail'', hstretch, -⟩ := hlexeme.stretch_reaches htail'
  rw [h] at hstretch
  exact hverdict kind' (Prod.mk.inj hstretch).1

/-- Where a character is unexpected, no lexeme begins with it. -/
theorem munches_unexpected (h : stretch ch more = (.unexpected, tail)) :
    Munches (ch :: more) (Verdict.result p ch tail .unexpected) (more.drop tail.length) := by
  have hnone := not_lexical_of_stretch h (by simp)
  have hopens : ¬Opens ch := by
    rw [opens_iff]
    rintro ⟨kind, cs, hlexeme⟩
    exact stretch_unexpected_iff.1 (congrArg Prod.fst h) kind cs hlexeme
  refine ⟨by simp [Verdict.result], ?_, by simp [Verdict.result], by simp [Verdict.result], ?_, ?_⟩
  · simpa [Verdict.result] using hnone
  · intro c
    simp only [Verdict.result, Except.error.injEq, LexicalError.unexpectedCharacter.injEq,
      List.head?_cons, Option.some.injEq]
    constructor
    · rintro ⟨q, -, rfl⟩
      exact ⟨rfl, hopens⟩
    · rintro ⟨rfl, -⟩
      exact ⟨p, rfl, rfl⟩
  · constructor
    · rintro ⟨q, ⟨⟩⟩
    · rintro ⟨inside, hinside, hquote⟩
      obtain ⟨rfl, rfl⟩ := List.cons.inj hinside
      have hverdict := stretch_unterminated_iff.2 ⟨rfl, hquote⟩
      simp [h] at hverdict

/-- Where a string is not closed, no lexeme stands, and nothing is left. -/
theorem munches_unterminated (h : stretch ch more = (.unterminated, tail)) :
    Munches (ch :: more) (Verdict.result p ch tail .unterminated) (more.drop tail.length) := by
  have hnone := not_lexical_of_stretch h (by simp)
  obtain ⟨rfl, hquote⟩ := stretch_unterminated_iff.1 (congrArg Prod.fst h)
  have hopens : Opens '"' := (opens_iff _).2 ⟨.string, [] ++ ['"'], .string (by simp)⟩
  refine ⟨by simp [Verdict.result], ?_, by simp [Verdict.result], by simp [Verdict.result], ?_, ?_⟩
  · simpa [Verdict.result] using hnone
  · intro c
    constructor
    · rintro ⟨q, ⟨⟩⟩
    · rintro ⟨hc, hopens'⟩
      obtain rfl : '"' = c := by simpa using hc
      exact absurd hopens hopens'
  · constructor
    · rintro -
      exact ⟨more, rfl, hquote⟩
    · rintro -
      exact ⟨p, rfl⟩

/-- At the end, the end token is found. -/
theorem munches_end : Munches [] (.ok (made .eof p [])) [] := by
  refine ⟨by simp [made], ?_, ?_, ?_, by simp, by simp⟩
  · constructor
    · rintro ⟨t, ⟨⟩, hkind⟩
      simp [made] at hkind
    · rintro ⟨kind, cs, hlexical, hcs⟩
      obtain ⟨ch, tail, rfl, -⟩ := (isLexeme_of_lexical hlexical).lead
      simp at hcs
  · rintro t ⟨⟩ hkind
    simp [made] at hkind
  · rintro t ⟨⟩
    rfl

/-- Wherever a token is read, the longest lexeme is taken, or there is none. -/
theorem munches_scanAt (p : Position) (rest : List Char) :
    Munches rest (Reader.scanAt p rest).1 (Reader.scanAt p rest).2.rest := by
  cases rest with
  | nil => exact munches_end
  | cons ch more =>
    simp only [Reader.scanAt]
    rcases h : stretch ch more with ⟨verdict, tail⟩
    cases verdict with
    | token kind => exact munches_token h
    | unexpected => exact munches_unexpected h
    | unterminated => exact munches_unterminated h

/-- The place in a text after so many calls of the scanner. -/
def place (source : String) : Nat → Cursor
  | 0 => .ofString source
  | n + 1 => (scan source (place source n)).2

/-- After any number of calls, the cursor is faithful to the text. -/
theorem place_faithful (source : String) (n : Nat) : (place source n).Faithful source := by
  induction n with
  | zero => exact Cursor.ofString_faithful source
  | succ n ih => exact (scan_eq ih).2.2

/-- **The scanner takes the longest lexeme.** Wherever it is called in the course of reading a text, it
skips blanks and comments, and of the text behind them it takes the longest beginning that is a lexeme,
for a token of the kind that is spelled so; it finds a character unexpected exactly if neither a lexeme
nor a comment begins with it, and a string unterminated exactly if a quote is never closed. -/
theorem scan_takes_longest (source : String) (n : Nat) :
    ∃ skipped rest, (place source n).remaining = skipped ++ rest ∧ Trivia rest skipped ∧ Ready rest ∧
      Munches rest (scan source (place source n)).1 (place source (n + 1)).remaining := by
  obtain ⟨hresult, hreader, -⟩ := scan_eq (place_faithful source n)
  obtain ⟨skipped, rest, hsplit, htrivia, hready, hscan⟩ := (place source n).reader.exists_scan_eq
  refine ⟨skipped, rest, hsplit, htrivia, hready, ?_⟩
  have hleft : (place source (n + 1)).remaining = (place source n).reader.scan.2.rest :=
    congrArg Reader.rest hreader
  rw [hresult, hleft, hscan]
  exact munches_scanAt _ rest

end Token

end Treewalk
