import Mathlib.Data.List.DropRight
import MixT.Library.Nesting

/-!
# The string helpers of the parser

The parser works on the text of a transaction through string helpers that are
not part of the repository. They are a parameter here: each is required to do
what its name says, and only on texts whose brackets match. Words end at
blanks and at brackets, and an opening brace is a word of its own.

-/

namespace MixT.Parsing

open MixT.Library.Nesting

/-- The text of a transaction or of a part of it. -/
abbrev Text := List Char

/-- What holds of every character of a text is decided along the text. -/
instance (priority := high) Text.decidableForall (s : Text) (p : Char → Prop) [DecidablePred p] :
    Decidable (∀ c ∈ s, p c) :=
  List.decidableBAll p s

/-- Opening brackets count 1 and closing ones -1. -/
def bracket (c : Char) : ℤ :=
  if c = '(' ∨ c = '{' then 1 else if c = ')' ∨ c = '}' then -1 else 0

/-- The characters of identifiers, reserved words and constants. -/
def wordChar (c : Char) : Bool := c.isAlphanum || c == '_'

def blanks (n : ℕ) : Text := List.replicate n ' '

/-- The text closes every bracket it opens. -/
abbrev Balanced (s : Text) : Prop := Outside bracket (fun _ => True) s

/-- The characters that are in no identifier. -/
def separators : Text :=
  ['(', ')', '{', '}', ' ', '.', ',', ';', '+', '-', '*', '/', '=', '&', '|', '!', '<', '>']

theorem wordChar_separators : ∀ c ∈ separators, wordChar c = false := by decide

theorem ne_of_wordChar {c x : Char} (hc : wordChar c = true)
    (hx : x ∈ separators := by decide) : c ≠ x := by
  rintro rfl
  simp [wordChar_separators c hx] at hc

theorem bracket_wordChar {c : Char} (h : wordChar c = true) : bracket c = 0 := by
  have h₁ : c ≠ '(' := ne_of_wordChar h
  have h₂ : c ≠ ')' := ne_of_wordChar h
  have h₃ : c ≠ '{' := ne_of_wordChar h
  have h₄ : c ≠ '}' := ne_of_wordChar h
  simp [bracket, h₁, h₂, h₃, h₄]

theorem wordChar_isDigit {c : Char} (h : c.isDigit = true) : wordChar c = true := by
  simp [wordChar, Char.isAlphanum, h]

@[simp] theorem bracket_open : bracket '(' = 1 := rfl
@[simp] theorem bracket_close : bracket ')' = -1 := rfl
@[simp] theorem bracket_openBrace : bracket '{' = 1 := rfl
@[simp] theorem bracket_closeBrace : bracket '}' = -1 := rfl
@[simp] theorem bracket_blank : bracket ' ' = 0 := rfl

theorem mem_blanks {n : ℕ} {c : Char} (h : c ∈ blanks n) : c = ' ' :=
  List.eq_of_mem_replicate h

theorem blanks_outside {p : Char → Prop} (hp : p ' ') (n : ℕ) :
    Outside bracket p (blanks n) :=
  Outside.of_forall fun c hc => by simp [mem_blanks hc, hp]

section Helpers

/-- The string helpers that the parser calls, with what it relies on. -/
structure StringHelpers where
  trim : Text → Text
  containsOutsideParens : Text → Text → Bool
  lastSplit : Text → Text → Text × Text
  firstSplit : Char → Text → Text × Text
  /-- The pieces go to an array of the given size. -/
  splitOutsideParens : Char → ℕ → Text → Option (List Text)
  contains : Char → Text → Bool
  containsParen : Text → Bool
  containsSpace : Text → Bool
  prefixEqual : Text → Text → Bool
  preParen : Text → Text
  /-- The content of the first group, and the text at the returned offset. -/
  nextParenGroup : Text → Text × Text
  copyWithinParens : Text → Text
  firstWordIs : Text → Text → Bool
  removeFirstWord : Text → Text
  parseInt : Text → ℕ
  trim_blanks : ∀ a b s, s.head? ≠ some ' ' → s.getLast? ≠ some ' ' →
    trim (blanks a ++ s ++ blanks b) = s
  containsOutsideParens_iff : ∀ sub s, sub ≠ [] → Balanced s →
    (containsOutsideParens sub s = true ↔ Occurs bracket sub s)
  lastSplit_eq : ∀ sub s pre post, Balanced s → SplitsLast bracket sub s pre post →
    lastSplit sub s = (pre, post)
  firstSplit_eq : ∀ c pre post, Outside bracket (· ≠ c) pre →
    firstSplit c (pre ++ c :: post) = (pre, post)
  splitOutsideParens_eq : ∀ c n ps, ps ≠ [] → (∀ s ∈ ps, Outside bracket (· ≠ c) s) →
    splitOutsideParens c n (List.intercalate [c] ps) = if ps.length ≤ n then some ps else none
  contains_iff : ∀ c s, contains c s = true ↔ c ∈ s
  containsParen_of_mem : ∀ s, '(' ∈ s → containsParen s = true
  containsParen_of_forall : ∀ s, (∀ c ∈ s, bracket c = 0) → containsParen s = false
  containsSpace_iff : ∀ s, containsSpace s = true ↔ ' ' ∈ s
  prefixEqual_iff : ∀ p s, prefixEqual p s = true ↔ p <+: s
  preParen_eq : ∀ pre post, (∀ c ∈ pre, bracket c = 0) → preParen (pre ++ '(' :: post) = pre
  nextParenGroup_eq : ∀ pre o inner c post, (∀ x ∈ pre, bracket x = 0) → bracket o = 1 →
    bracket c = -1 → Balanced inner →
    nextParenGroup (pre ++ o :: inner ++ c :: post) = (inner, post)
  copyWithinParens_eq : ∀ pre o inner c post, (∀ x ∈ pre, bracket x = 0) → bracket o = 1 →
    bracket c = -1 → Balanced inner → (∀ x ∈ post, bracket x = 0) →
    copyWithinParens (pre ++ o :: inner ++ c :: post) = inner
  firstWordIs_self : ∀ a w rest, w ≠ [] → (∀ c ∈ w, wordChar c = true) →
    (∀ c ∈ rest.head?, c = ' ' ∨ bracket c ≠ 0) → firstWordIs w (blanks a ++ w ++ rest) = true
  firstWordIs_other : ∀ a w v rest, v ≠ [] → v ≠ w → (∀ c ∈ w, wordChar c = true) →
    (∀ c ∈ v, wordChar c = true) → (∀ c ∈ rest.head?, wordChar c = false) →
    firstWordIs w (blanks a ++ v ++ rest) = false
  firstWordIs_blanks : ∀ a w, w ≠ [] → firstWordIs w (blanks a) = false
  firstWordIs_brace : ∀ a rest, firstWordIs ['{'] (blanks a ++ '{' :: rest) = true
  firstWordIs_brace_word : ∀ a c rest, wordChar c = true →
    firstWordIs ['{'] (blanks a ++ c :: rest) = false
  firstWordIs_word_brace : ∀ a w rest, (∀ c ∈ w, wordChar c = true) →
    firstWordIs w (blanks a ++ '{' :: rest) = false
  removeFirstWord_eq : ∀ a w rest, w ≠ [] → (∀ c ∈ w, wordChar c = true) →
    (∀ c ∈ rest.head?, c = ' ' ∨ bracket c ≠ 0) → removeFirstWord (blanks a ++ w ++ rest) = rest
  parseInt_eq : ∀ i < 2 ^ 31, parseInt (Nat.toDigits 10 i) = i

end Helpers

section Scanning

/-- Whether a character belongs to the word around it. -/
def inWord (c : Char) : Bool := c ≠ ' ' ∧ bracket c = 0

/-- The first word and what is behind it. -/
def firstWord (s : Text) : Text × Text :=
  match s.dropWhile (· = ' ') with
  | [] => ([], [])
  | c :: rest =>
    if bracket c = 0 then ((c :: rest).takeWhile inWord, (c :: rest).dropWhile inWord)
    else ([c], rest)

theorem inWord_of_wordChar {c : Char} (h : wordChar c = true) : inWord c = true := by
  have hb : c ≠ ' ' := ne_of_wordChar h
  simp [inWord, hb, bracket_wordChar h]

theorem dropWhile_blanks (a : ℕ) {c : Char} (rest : Text) (hc : c ≠ ' ') :
    (blanks a ++ c :: rest).dropWhile (· = ' ') = c :: rest := by
  rw [List.dropWhile_append_of_pos fun x hx => by simp [mem_blanks hx]]
  simp [hc]

theorem firstWord_word (a : ℕ) {w : Text} (rest : Text) (nonempty : w ≠ [])
    (word : ∀ c ∈ w, wordChar c = true) :
    firstWord (blanks a ++ w ++ rest) = (w ++ rest.takeWhile inWord, rest.dropWhile inWord) := by
  obtain ⟨c, w, rfl⟩ := List.exists_cons_of_ne_nil nonempty
  have hc := word c List.mem_cons_self
  have all : ∀ x ∈ c :: w, inWord x = true := fun x hx => inWord_of_wordChar (word x hx)
  rw [firstWord, List.append_assoc, List.cons_append, dropWhile_blanks a _ (ne_of_wordChar hc)]
  simp only [bracket_wordChar hc, if_true, ← List.cons_append]
  rw [List.takeWhile_append_of_pos all, List.dropWhile_append_of_pos all]

theorem firstWord_ends {rest : Text} (ends : ∀ c ∈ rest.head?, c = ' ' ∨ bracket c ≠ 0) :
    rest.takeWhile inWord = [] ∧ rest.dropWhile inWord = rest := by
  cases rest with
  | nil => exact ⟨rfl, rfl⟩
  | cons c rest =>
      have stop : inWord c = false := by
        have := ends c rfl
        simp only [inWord, decide_eq_false_iff_not]
        tauto
      simp [stop]

/-- The helpers as plain scans of the text. -/
def StringHelpers.scanning : StringHelpers where
  trim s := (s.dropWhile (· = ' ')).rdropWhile (· = ' ')
  containsOutsideParens sub s := places bracket sub s ≠ []
  lastSplit := splitLast bracket
  firstSplit := splitFirst bracket
  splitOutsideParens c n s :=
    let ps := pieces bracket c 0 s
    if ps.length ≤ n then some ps else none
  contains c s := c ∈ s
  containsParen s := '(' ∈ s
  containsSpace s := ' ' ∈ s
  prefixEqual p s := p.isPrefixOf s
  preParen s := s.takeWhile (bracket · = 0)
  nextParenGroup := firstGroup bracket
  copyWithinParens s := (firstGroup bracket s).1
  firstWordIs w s := (firstWord s).1 = w
  removeFirstWord s := (firstWord s).2
  parseInt s := Nat.ofDigitChars 10 s 0
  trim_blanks a b s hfirst hlast := by
    cases s with
    | nil =>
        have all : ∀ c ∈ blanks a ++ [] ++ blanks b, decide (c = ' ') = true := by
          intro c hc
          obtain h | h := List.mem_append.mp hc
          · simpa using mem_blanks (by simpa using h)
          · simpa using mem_blanks h
        rw [List.dropWhile_eq_nil_iff.mpr all]
        simp
    | cons c s =>
        have hc : c ≠ ' ' := by simpa using hfirst
        have front : (blanks a ++ c :: s ++ blanks b).dropWhile (· = ' ') =
            c :: s ++ blanks b := by
          simpa using dropWhile_blanks a (s ++ blanks b) hc
        rw [front]
        have strip : ∀ n, (c :: s ++ blanks n).rdropWhile (· = ' ') = c :: s := by
          intro n
          induction n with
          | zero =>
              simp only [blanks, List.replicate_zero, List.append_nil]
              refine List.rdropWhile_eq_self_iff.mpr fun hl => ?_
              simpa [List.getLast?_eq_some_getLast hl] using hlast
          | succ n ih =>
              rw [blanks, List.replicate_succ', ← List.append_assoc,
                List.rdropWhile_concat_pos _ _ _ (by simp)]
              exact ih
        exact strip b
  containsOutsideParens_iff sub s _ _ := by simpa using places_ne_nil_iff
  lastSplit_eq _ _ _ _ _ h := splitLast_eq h
  firstSplit_eq c _ _ h := splitFirst_eq h (by simp)
  splitOutsideParens_eq c n ps hps h := by
    simp only [pieces_intercalate hps h (by simp : ¬ c ≠ c)]
  contains_iff c s := by simp
  containsParen_of_mem s h := by simpa using h
  containsParen_of_forall s h := by
    simp only [decide_eq_false_iff_not]
    intro mem
    simpa using h _ mem
  containsSpace_iff s := by simp
  prefixEqual_iff p s := List.isPrefixOf_iff_prefix
  preParen_eq pre post h := by
    rw [List.takeWhile_append_of_pos (by simpa using h)]
    simp
  nextParenGroup_eq pre o inner c post hpre ho hc h :=
    firstGroup_eq hpre (by simp [ho]) hc h
  copyWithinParens_eq pre o inner c post hpre ho hc h _ :=
    congrArg Prod.fst (firstGroup_eq hpre (by simp [ho]) hc h)
  firstWordIs_self a w rest nonempty word ends := by
    rw [firstWord_word a rest nonempty word, (firstWord_ends ends).1]
    simp
  firstWordIs_other a w v rest nonempty hne hw hv ends := by
    rw [firstWord_word a rest nonempty hv]
    simp only [decide_eq_false_iff_not]
    rintro rfl
    cases hmore : rest.takeWhile inWord with
    | nil => simp [hmore] at hne
    | cons c more =>
        obtain ⟨tail, htail⟩ : c :: more <+: rest := hmore ▸ List.takeWhile_prefix inWord
        have notWord := ends c (by simp [← htail])
        have word := hw c (by simp [hmore])
        simp [word] at notWord
  firstWordIs_blanks a w nonempty := by
    have none : (blanks a).dropWhile (· = ' ') = [] :=
      List.dropWhile_eq_nil_iff.mpr fun c hc => by simp [mem_blanks hc]
    simp [firstWord, none, nonempty.symm]
  firstWordIs_brace a rest := by
    simp [firstWord, dropWhile_blanks a rest (by decide : '{' ≠ ' ')]
  firstWordIs_brace_word a c rest word := by
    have : firstWord (blanks a ++ [c] ++ rest) = _ := firstWord_word a rest (by simp) (by simpa)
    rw [List.append_assoc, List.singleton_append] at this
    have hc : c ≠ '{' := ne_of_wordChar word
    simp [this, hc]
  firstWordIs_word_brace a w rest word := by
    have notBrace : ['{'] ≠ w := by
      rintro rfl
      exact ne_of_wordChar (word '{' (by simp)) (by decide) rfl
    simp [firstWord, dropWhile_blanks a rest (by decide : '{' ≠ ' '), notBrace]
  removeFirstWord_eq a w rest nonempty word ends := by
    rw [firstWord_word a rest nonempty word, (firstWord_ends ends).2]
  parseInt_eq i _ := Nat.ofDigitChars_ten_toDigits

end Scanning

end MixT.Parsing
