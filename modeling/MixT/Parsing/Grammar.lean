import MixT.Parsing.Expression

/-!
# The grammar of expressions

Expressions as the C++ grammar derives them, with their text and the tree that
the grammar assigns. The operators of an expression outside parentheses decide
whether it may stand as an operand: to the left of an operator none of them
binds weaker, and to its right all of them bind stronger. Blanks may stand
around operators, inside parentheses and behind commas.

-/

namespace MixT.Parsing

open MixT.Library.Nesting

inductive Operator
  | plus | minus | times | div | eq | and | or | ne | gt | lt | ge | le
  deriving DecidableEq

namespace Operator

/-- The symbol under which the parser advertises the operator. -/
def symbol : Operator → Text
  | plus => ['+']
  | minus => ['-', ' ']
  | times => ['*', ' ']
  | div => ['/']
  | eq => ['=', '=']
  | and => ['&', '&']
  | or => ['|', '|']
  | ne => ['!', '=']
  | gt => ['>', ' ']
  | lt => ['<']
  | ge => ['>', '=']
  | le => ['<', '=']

/-- How strongly the operator binds in C++. -/
def precedence : Operator → ℕ
  | times | div => 5
  | plus | minus => 4
  | lt | gt | le | ge => 3
  | eq | ne => 2
  | and => 1
  | or => 0

/-- The place of the operator's symbol among those the parser searches. -/
def rank (o : Operator) : ℕ := binopSymbols.idxOf o.symbol

end Operator

/-- The operator that a parsed node stands for. -/
def readOperator : Char → Option Operator
  | '+' => some .plus
  | '-' => some .minus
  | '*' => some .times
  | '/' => some .div
  | '=' => some .eq
  | '&' => some .and
  | '|' => some .or
  | '!' => some .ne
  | '>' => some .gt
  | '<' => some .lt
  | _ => none

/-- The words that are no identifiers. -/
def reservedWords : List Text :=
  [['v', 'a', 'r'], ['r', 'e', 'm', 'o', 't', 'e'], ['r', 'e', 't', 'u', 'r', 'n'],
    ['w', 'h', 'i', 'l', 'e'], ['i', 'f'], ['e', 'l', 's', 'e'], BuiltinOp.name .isValid,
    BuiltinOp.name .endorse, BuiltinOp.name .ensure]

structure Identifier where
  text : Text
  nonempty : text ≠ []
  word : ∀ c ∈ text, wordChar c = true
  start : ∀ c ∈ text.head?, c.isDigit = false
  notReserved : text ∉ reservedWords

/-- A derivation of the grammar. The numbers are those of the blanks before and behind. -/
inductive Surface
  | var (x : Identifier)
  | const (i : ℕ)
  | field (e : Surface) (f : Identifier)
  | call (e : Surface) (op : Identifier) (behindCommas : ℕ) (args : List Surface)
  | paren (before : ℕ) (e : Surface) (behind : ℕ)
  | binop (l : Surface) (before : ℕ) (o : Operator) (behind : ℕ) (r : Surface)

namespace Surface

@[elab_as_elim]
theorem induction {P : Surface → Prop} (var : ∀ x, P (var x)) (const : ∀ i, P (const i))
    (field : ∀ e f, P e → P (field e f))
    (call : ∀ e op g args, P e → (∀ a ∈ args, P a) → P (call e op g args))
    (paren : ∀ a e b, P e → P (paren a e b))
    (binop : ∀ l a o b r, P l → P r → P (binop l a o b r)) (e : Surface) : P e :=
  Surface.rec (motive_1 := P) (motive_2 := fun es => ∀ a ∈ es, P a) var const field call paren
    binop (by simp) (fun e es he hes a ha => by
      obtain rfl | ha := List.mem_cons.mp ha
      · exact he
      · exact hes a ha) e

/-- The texts between the commas. -/
def argPieces (behindCommas : ℕ) : List Text → List Text
  | [] => [[]]
  | s :: ss => s :: ss.map (blanks behindCommas ++ ·)

mutual

def text : Surface → Text
  | var x => x.text
  | const i => Nat.toDigits 10 i
  | field e f => e.text ++ '.' :: f.text
  | call e op g args =>
    e.text ++ '.' :: (op.text ++ '(' :: List.intercalate [','] (argPieces g (textAll args)) ++ [')'])
  | paren a e b => '(' :: (blanks a ++ e.text ++ blanks b) ++ [')']
  | binop l a o b r => l.text ++ (blanks a ++ (o.symbol ++ (blanks b ++ r.text)))

def textAll : List Surface → List Text
  | [] => []
  | e :: es => e.text :: textAll es

end

mutual

/-- The tree that the grammar assigns. Parentheses leave no node. -/
def ast : Surface → Expr Operator
  | var x => .varReference x.text
  | const i => .constant i
  | field e f => .fieldReference e.ast f.text
  | call e op _ args => .operation op.text e.ast (astAll args)
  | paren _ e _ => e.ast
  | binop l _ o _ r => .binOp o l.ast r.ast

def astAll : List Surface → List (Expr Operator)
  | [] => []
  | e :: es => e.ast :: astAll es

end

/-- The operators outside parentheses. -/
def spine : Surface → List Operator
  | binop l _ o _ r => l.spine ++ o :: r.spine
  | _ => []

/-- The forms that may stand before a dot. -/
def Primary : Surface → Prop
  | const _ | binop .. => False
  | _ => True

mutual

/-- The grammar of C++. Constants are of type `int`. -/
def Grammatical : Surface → Prop
  | var _ => True
  | const i => i < 2 ^ 31
  | field e _ => e.Primary ∧ e.Grammatical
  | call e _ _ args => e.Primary ∧ e.Grammatical ∧ GrammaticalAll args
  | paren _ e _ => e.Grammatical
  | binop l _ o _ r =>
    (∀ o' ∈ l.spine, o.precedence ≤ o'.precedence) ∧
      (∀ o' ∈ r.spine, o.precedence < o'.precedence) ∧ l.Grammatical ∧ r.Grammatical

def GrammaticalAll : List Surface → Prop
  | [] => True
  | e :: es => e.Grammatical ∧ GrammaticalAll es

end

theorem text_var (x : Identifier) : (var x).text = x.text := rfl

theorem text_const (i : ℕ) : (const i).text = Nat.toDigits 10 i := rfl

theorem text_field (e : Surface) (f : Identifier) : (field e f).text = e.text ++ '.' :: f.text :=
  rfl

theorem text_paren (a : ℕ) (e : Surface) (b : ℕ) :
    (paren a e b).text = '(' :: (blanks a ++ e.text ++ blanks b) ++ [')'] := rfl

theorem text_binop (l : Surface) (a : ℕ) (o : Operator) (b : ℕ) (r : Surface) :
    (binop l a o b r).text = l.text ++ (blanks a ++ (o.symbol ++ (blanks b ++ r.text))) := rfl

@[simp] theorem textAll_eq (es : List Surface) : textAll es = es.map text := by
  induction es with
  | nil => rfl
  | cons e es ih => simp [textAll, ih]

theorem text_call (e : Surface) (op : Identifier) (g : ℕ) (args : List Surface) :
    (call e op g args).text = e.text ++ '.' :: (op.text ++
      '(' :: List.intercalate [','] (argPieces g (args.map text)) ++ [')']) := by
  rw [← textAll_eq]
  rfl

@[simp] theorem astAll_eq (es : List Surface) : astAll es = es.map ast := by
  induction es with
  | nil => rfl
  | cons e es ih => simp [astAll, ih]

@[simp] theorem grammaticalAll_iff (es : List Surface) :
    GrammaticalAll es ↔ ∀ e ∈ es, e.Grammatical := by
  induction es with
  | nil => simp [GrammaticalAll]
  | cons e es ih => simp [GrammaticalAll, ih]

theorem Primary.spine_eq {e : Surface} (h : e.Primary) : e.spine = [] := by
  cases e <;> first | rfl | exact h.elim

end Surface

section Texts

/-- The characters outside parentheses where no operator is. -/
def atomChar (c : Char) : Prop := wordChar c = true ∨ c = '.' ∨ c = '('

def operatorChars : Text := ['+', '-', '*', '/', '=', '&', '|', '!', '>', '<']

/-- The characters outside parentheses in expressions. -/
def exprChar (c : Char) : Prop := atomChar c ∨ c = ' ' ∨ c ∈ operatorChars

theorem not_atomChar {c : Char} (h : c ∈ ' ' :: ',' :: ')' :: operatorChars) : ¬ atomChar c := by
  revert h
  unfold atomChar
  revert c
  decide

theorem ne_comma_of_exprChar {c : Char} (h : exprChar c) : c ≠ ',' := by
  rintro rfl
  revert h
  unfold exprChar atomChar
  decide

theorem word_outside {s : Text} {p : Char → Prop} (h : ∀ c ∈ s, wordChar c = true)
    (hp : ∀ c, wordChar c = true → p c) : Outside bracket p s :=
  Outside.of_forall fun c hc => ⟨bracket_wordChar (h c hc), hp c (h c hc)⟩

theorem digits_word (i : ℕ) : ∀ c ∈ Nat.toDigits 10 i, wordChar c = true := fun _ hc =>
  wordChar_isDigit (Nat.isDigit_of_mem_toDigits (by decide) (by decide) hc)

theorem symbol_outside (o : Operator) : Outside bracket exprChar o.symbol := by
  refine Outside.of_forall ?_
  unfold exprChar atomChar
  cases o <;> decide

/-- A text that starts and ends with other characters than blanks. -/
def Solid (s : Text) : Prop :=
  (∃ c rest, s = c :: rest ∧ atomChar c ∧ c ≠ '.') ∧ ∃ init c, s = init ++ [c] ∧ c ≠ ' '

theorem Solid.of_word {s : Text} (nonempty : s ≠ []) (h : ∀ c ∈ s, wordChar c = true) :
    Solid s := by
  refine ⟨?_, ?_⟩
  · obtain ⟨c, rest, rfl⟩ := List.exists_cons_of_ne_nil nonempty
    have hc := h c List.mem_cons_self
    exact ⟨c, rest, rfl, .inl hc, ne_of_wordChar hc⟩
  · refine ⟨s.dropLast, s.getLast nonempty, (List.dropLast_concat_getLast nonempty).symm, ?_⟩
    exact ne_of_wordChar (h _ (List.getLast_mem nonempty))

theorem Solid.append {s t u : Text} (hs : Solid s) (hu : Solid u) : Solid (s ++ (t ++ u)) := by
  obtain ⟨⟨c, rest, rfl, hc⟩, -⟩ := hs
  obtain ⟨-, init, c', rfl, hc'⟩ := hu
  exact ⟨⟨c, rest ++ (t ++ (init ++ [c'])), by simp, hc⟩, c :: rest ++ (t ++ init), c', by simp, hc'⟩

theorem Solid.closed {s t : Text} (hs : Solid s) : Solid (s ++ (t ++ [')'])) := by
  obtain ⟨⟨c, rest, rfl, hc⟩, -⟩ := hs
  exact ⟨⟨c, rest ++ (t ++ [')']), by simp, hc⟩, c :: rest ++ t, ')', by simp, by decide⟩

theorem Solid.head_ne {s : Text} (hs : Solid s) : s.head? ≠ some ' ' := by
  obtain ⟨⟨c, rest, rfl, hc, -⟩, -⟩ := hs
  simp only [List.head?_cons, ne_eq, Option.some.injEq]
  rintro rfl
  exact not_atomChar (by decide) hc

theorem Solid.last_ne {s : Text} (hs : Solid s) : s.getLast? ≠ some ' ' := by
  obtain ⟨-, init, c, rfl, hc⟩ := hs
  simpa using hc

theorem Solid.ne_nil {s : Text} (hs : Solid s) : s ≠ [] := by
  obtain ⟨⟨c, rest, rfl, -⟩, -⟩ := hs
  simp

namespace Surface

theorem text_solid (e : Surface) : Solid e.text := by
  induction e using induction with
  | var x => exact .of_word x.nonempty x.word
  | const i => exact .of_word Nat.toDigits_ne_nil (digits_word i)
  | field e f he => exact he.append (t := ['.']) (.of_word f.nonempty f.word)
  | call e op g args he _ =>
      have := he.closed (t := '.' :: (op.text ++ '(' ::
        List.intercalate [','] (argPieces g (textAll args))))
      simpa only [text_call, textAll_eq, List.append_assoc, List.cons_append] using this
  | paren a e b _ =>
      exact ⟨⟨'(', _, rfl, .inr (.inr rfl), by decide⟩, _, ')', rfl, by decide⟩
  | binop l a o b r hl hr =>
      simpa [text_binop] using hl.append (t := blanks a ++ (o.symbol ++ blanks b)) hr

theorem argPieces_outside {p : Char → Prop} (hp : p ' ') {g : ℕ} {ss : List Text}
    (h : ∀ s ∈ ss, Outside bracket p s) : ∀ s ∈ argPieces g ss, Outside bracket p s := by
  intro s hs
  cases ss with
  | nil =>
      obtain rfl : s = [] := by simpa [argPieces] using hs
      exact .nil
  | cons t ss =>
      simp only [argPieces, List.mem_cons, List.mem_map] at hs
      obtain rfl | ⟨u, hu, rfl⟩ := hs
      · exact h _ List.mem_cons_self
      · exact (blanks_outside hp g).append (h u (List.mem_cons_of_mem _ hu))

theorem text_outside {e : Surface} (h : e.Grammatical) :
    Outside bracket exprChar e.text ∧ (e.spine = [] → Outside bracket atomChar e.text) := by
  -- where no operator is outside parentheses, the second part is all
  have atomic : ∀ (P : Prop) (s : Text), Outside bracket atomChar s →
      Outside bracket exprChar s ∧ (P → Outside bracket atomChar s) :=
    fun _ s hs => ⟨hs.mono fun c hc => .inl hc, fun _ => hs⟩
  have dot : atomChar '.' := .inr (.inl rfl)
  have word : ∀ x : Identifier, Outside bracket atomChar x.text :=
    fun x => word_outside x.word fun c hc => .inl hc
  have group : ∀ s, Balanced s → Outside bracket atomChar ('(' :: s ++ [')']) :=
    fun s hs => .group rfl rfl (.inr (.inr rfl)) hs
  have balanced : ∀ s, Outside bracket exprChar s → Balanced s :=
    fun s hs => hs.mono fun _ _ => trivial
  induction e using induction with
  | var x => exact atomic _ _ (word x)
  | const i => exact atomic _ _ (word_outside (digits_word i) fun c hc => .inl hc)
  | field e f he =>
      obtain ⟨primary, grammar⟩ := h
      have front := (he grammar).2 primary.spine_eq
      exact atomic _ _ (front.append (.cons rfl dot (word f)))
  | call e op g args he hargs =>
      obtain ⟨primary, grammar, all⟩ := h
      have front := (he grammar).2 primary.spine_eq
      have inner : Balanced (List.intercalate [','] (argPieces g (textAll args))) := by
        refine .intercalate rfl trivial (argPieces_outside trivial ?_)
        intro s hs
        obtain ⟨a, ha, rfl⟩ := List.mem_map.mp (textAll_eq args ▸ hs)
        exact balanced _ (hargs a ha ((grammaticalAll_iff args).mp all a ha)
         ).1
      have := front.append (.cons rfl dot ((word op).append (group _ inner)))
      exact atomic _ _ (by simpa [text_call] using this)
  | paren a e b he =>
      have inner := (he h).1
      refine atomic _ _ (group _ ?_)
      exact ((blanks_outside trivial a).append (balanced _ inner)).append (blanks_outside trivial b)
  | binop l a o b r hl hr =>
      obtain ⟨-, -, grammarL, grammarR⟩ := h
      have left := (hl grammarL).1
      have right := (hr grammarR).1
      have blank : exprChar ' ' := .inr (.inl rfl)
      refine ⟨left.append ((blanks_outside blank a).append ((symbol_outside o).append
        ((blanks_outside blank b).append right))), fun none => ?_⟩
      simp [spine] at none

end Surface

end Texts

end MixT.Parsing
