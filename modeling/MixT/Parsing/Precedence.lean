import MixT.Library.Outcome
import MixT.Parsing.Grammar

/-!
# Precedence and associativity

A symbol is found in the text of an expression exactly when an operator outside
parentheses shows it, so the parser splits at the operator whose symbol it
searches first. The parsed tree is the one of the grammar when at every node
that operator is the one of the node.

-/

namespace MixT.Parsing

open MixT.Library MixT.Library.Nesting

section Searches

/-- The operator's text contains the symbol. -/
def Operator.shows (o : Operator) (sub : Text) : Bool :=
  sub = o.symbol || (o = .le && sub = ['<'])

theorem binopSymbols_cons (sub : Text) (h : sub ∈ binopSymbols) :
    ∃ c rest, sub = c :: rest ∧ c ∈ operatorChars := by
  have first : ∀ sub ∈ binopSymbols, sub ≠ [] ∧ sub.headD ' ' ∈ operatorChars := by decide
  obtain ⟨nonempty, mem⟩ := first sub h
  obtain ⟨c, rest, rfl⟩ := List.exists_cons_of_ne_nil nonempty
  exact ⟨c, rest, rfl, mem⟩

theorem shows_iff (o : Operator) : ∀ sub ∈ binopSymbols, sub <:+: o.symbol ↔ o.shows sub = true := by
  cases o <;> decide

theorem bracket_symbol (o : Operator) : ∀ c ∈ o.symbol, bracket c = 0 := by
  cases o <;> decide

/-- The symbols that end with a blank. -/
theorem blank_symbols : ∀ sub ∈ binopSymbols,
    (∀ c ∈ sub, c ∈ operatorChars) ∨ sub ∈ [['-', ' '], ['*', ' '], ['>', ' ']] := by
  decide

theorem occurs_symbol (o : Operator) {sub t : Text} (hsub : sub ∈ binopSymbols)
    (ht : ∀ c ∈ t.head?, c ∉ operatorChars) :
    Occurs bracket sub (o.symbol ++ t) ↔ o.shows sub = true ∨ Occurs bracket sub t := by
  obtain all | blank := blank_symbols sub hsub
  · obtain ⟨c, rest, rfl, -⟩ := binopSymbols_cons sub hsub
    rw [occurs_word (bracket_symbol o) (by simp) all ht, shows_iff o _ hsub]
  · fin_cases blank <;> cases o <;> simp [Operator.symbol, Operator.shows, occurs_cons, bracket]

/-- A place that is not the end of an operand is followed by a blank or an operand. -/
theorem head_behind (b : ℕ) {s : Text} (hs : Solid s) (t : Text) :
    ∀ c ∈ (blanks b ++ (s ++ t)).head?, c ∉ operatorChars := by
  intro c hc mem
  cases b with
  | zero =>
      obtain ⟨⟨c', rest, rfl, hc', -⟩, -⟩ := hs
      obtain rfl : c' = c := by simpa [blanks] using hc
      exact not_atomChar (List.mem_cons_of_mem _ (List.mem_cons_of_mem _
        (List.mem_cons_of_mem _ mem))) hc'
  | succ b =>
      obtain rfl : ' ' = c := by simpa [blanks, List.replicate_succ] using hc
      exact absurd mem (by decide)

theorem occurs_blanks (a : ℕ) {sub t : Text} (hsub : sub ∈ binopSymbols) :
    Occurs bracket sub (blanks a ++ t) ↔ Occurs bracket sub t := by
  obtain ⟨c, rest, rfl, hc⟩ := binopSymbols_cons sub hsub
  refine occurs_append_of_outside (blanks_outside (p := (· = ' ')) rfl a) ?_
  rintro rfl
  exact absurd hc (by decide)

theorem occurs_atom {e : Surface} (h : e.Grammatical) (none : e.spine = []) {sub : Text}
    (hsub : sub ∈ binopSymbols) (t : Text) :
    Occurs bracket sub (e.text ++ t) ↔
      (∃ o ∈ e.spine, o.shows sub = true) ∨ Occurs bracket sub t := by
  obtain ⟨c, rest, rfl, hc⟩ := binopSymbols_cons sub hsub
  have quiet : ¬ atomChar c := not_atomChar (by simp [hc])
  rw [occurs_append_of_outside ((Surface.text_outside h).2 none) quiet]
  simp [none]

/-- A symbol occurs in a text when an operator shows it. -/
theorem occurs_text {e : Surface} (h : e.Grammatical) {sub : Text} (hsub : sub ∈ binopSymbols)
    (t : Text) :
    Occurs bracket sub (e.text ++ t) ↔
      (∃ o ∈ e.spine, o.shows sub = true) ∨ Occurs bracket sub t := by
  induction e using Surface.induction generalizing t with
  | binop l a o b r hl hr =>
      obtain ⟨-, -, grammarL, grammarR⟩ := h
      simp only [Surface.text_binop, Surface.spine, List.append_assoc]
      rw [hl grammarL, occurs_blanks a hsub, occurs_symbol o hsub (head_behind b r.text_solid t),
        occurs_blanks b hsub, hr grammarR]
      simp only [List.mem_append, List.mem_cons, or_and_right, exists_or, exists_eq_left,
        or_assoc]
  | var x => exact occurs_atom h rfl hsub t
  | const i => exact occurs_atom h rfl hsub t
  | field e f => exact occurs_atom h rfl hsub t
  | call e op g args => exact occurs_atom h rfl hsub t
  | paren a e b => exact occurs_atom h rfl hsub t

theorem balanced_text {e : Surface} (h : e.Grammatical) : Balanced e.text :=
  (Surface.text_outside h).1.mono fun _ _ => trivial

variable (H : StringHelpers)

theorem contains_symbol {e : Surface} (h : e.Grammatical) {sub : Text}
    (hsub : sub ∈ binopSymbols) :
    H.containsOutsideParens sub e.text = true ↔ ∃ o ∈ e.spine, o.shows sub = true := by
  obtain ⟨c, rest, rfl, -⟩ := binopSymbols_cons sub hsub
  have occurs := occurs_text h hsub []
  rw [List.append_nil] at occurs
  rw [H.containsOutsideParens_iff _ _ (by simp) (balanced_text h), occurs]
  simp [not_occurs_nil]

/-- What is found is searched no later than what is contained. -/
theorem find_symbol_le {p : Text → Bool} {sym sub : Text}
    (found : binopSymbols.find? p = some sym) (hp : p sub = true) :
    binopSymbols.idxOf sym ≤ binopSymbols.idxOf sub := by
  obtain ⟨-, before, behind, parts, none⟩ := List.find?_eq_some_iff_append.mp found
  have notBefore : sub ∉ before := fun mem => by simpa [hp] using none sub mem
  rw [parts, List.idxOf_append_of_notMem notBefore]
  refine le_trans ?_ (Nat.le_add_right _ _)
  rw [List.idxOf_append]
  split_ifs with mem
  · exact List.idxOf_le_length
  · simp

theorem symbol_mem (o : Operator) : o.symbol ∈ binopSymbols := by
  cases o <;> decide

theorem shows_symbol (o : Operator) : o.shows o.symbol = true := by
  simp [Operator.shows]

theorem rank_lt (o : Operator) (hge : o ≠ .ge) (hle : o ≠ .le)
    (rank : binopSymbols.idxOf ['<'] ≤ o.rank) : o.symbol = ['<'] := by
  revert hge hle rank
  cases o <;> decide

/-- An operator that is not searched before `o` shows no symbol that is. -/
theorem shows_of_rank (o o' : Operator) (hge : o ≠ .ge) (hle : o ≠ .le)
    (rank : o.rank ≤ o'.rank) {sub : Text} (shows : o'.shows sub = true)
    (found : binopSymbols.idxOf sub ≤ o.rank) : sub = o.symbol := by
  simp only [Operator.shows, Bool.or_eq_true, Bool.and_eq_true, decide_eq_true_eq] at shows
  obtain rfl | ⟨-, rfl⟩ := shows
  · exact (List.idxOf_inj (symbol_mem o')).mp (le_antisymm found rank)
  · exact (rank_lt o hge hle found).symm

/-- A symbol whose first character stands for `o` is not searched before that of `o`. -/
theorem rank_of_read (o : Operator) : ∀ sub ∈ binopSymbols,
    readOperator (sub.headD ' ') = some o →
      o ≠ .ge ∧ o ≠ .le ∧ o.rank ≤ binopSymbols.idxOf sub := by
  cases o <;> decide

theorem precedence_of_shows (o o' : Operator) (h : o'.shows o.symbol = true) :
    o'.precedence = o.precedence := by
  revert h
  cases o <;> cases o' <;> decide

/-- The last occurrence of the symbol of an operator that no operator to its right shows. -/
theorem splitsLast_symbol (l : Text) (a : ℕ) (o : Operator) (b : ℕ) {r : Surface}
    (h : r.Grammatical) (hl : Balanced l) (binds : ∀ o' ∈ r.spine, o.precedence < o'.precedence) :
    SplitsLast bracket o.symbol (l ++ (blanks a ++ (o.symbol ++ (blanks b ++ r.text))))
      (l ++ blanks a) (blanks b ++ r.text) := by
  have right : ¬ Occurs bracket o.symbol (blanks b ++ r.text) := by
    rw [occurs_blanks b (symbol_mem o)]
    have occurs := occurs_text h (symbol_mem o) []
    rw [List.append_nil] at occurs
    rw [occurs, not_or]
    refine ⟨?_, not_occurs_nil (by cases o <;> simp [Operator.symbol])⟩
    rintro ⟨o', ho', shows⟩
    exact absurd (precedence_of_shows o o' shows) (binds o' ho').ne'
  have heads : ∀ c ∈ operatorChars, ¬ [c] <+: blanks b ++ r.text := by
    rintro c hc ⟨rest, hrest⟩
    refine head_behind b r.text_solid [] c ?_ hc
    simp [← hrest]
  have equals := heads '=' (by decide)
  have ands := heads '&' (by decide)
  have ors := heads '|' (by decide)
  have closed : depth bracket (l ++ blanks a) = 0 :=
    (hl.append (blanks_outside trivial a)).closed
  have regroup : l ++ (blanks a ++ (o.symbol ++ (blanks b ++ r.text))) =
      (l ++ blanks a) ++ o.symbol ++ (blanks b ++ r.text) := by
    simp
  rw [regroup]
  cases o <;> refine splitsLast_of closed (by decide) ?_ <;>
    simpa [Operator.symbol, occurs_cons, bracket, equals, ands, ors] using right

end Searches

section Equations

variable (H : StringHelpers) {s : Text}

theorem trim_solid (a : ℕ) (hs : Solid s) (b : ℕ) : H.trim (blanks a ++ s ++ blanks b) = s :=
  H.trim_blanks a b s hs.head_ne hs.last_ne

theorem trim_self (hs : Solid s) : H.trim s = s := by
  simpa [blanks] using trim_solid H 0 hs 0

/-- Blanks around an expression do not matter. -/
theorem parseExpression_blanks (fuel a : ℕ) (hs : Solid s) (b : ℕ) :
    parseExpression H fuel (blanks a ++ s ++ blanks b) = parseExpression H fuel s := by
  cases fuel with
  | zero => rfl
  | succ fuel => simp only [parseExpression, trim_solid H a hs b, trim_self H hs]

theorem not_contains {p : Char → Prop} {c : Char} (rest : Text) (hs : Outside bracket p s)
    (hc : ¬ p c) : H.containsOutsideParens (c :: rest) s = false := by
  rw [Bool.eq_false_iff, ne_eq,
    H.containsOutsideParens_iff _ _ (by simp) (hs.mono fun _ _ => trivial)]
  exact not_occurs_of_outside hs hc

theorem containsParen_word (hs : ∀ c ∈ s, wordChar c = true) : H.containsParen s = false :=
  H.containsParen_of_forall s fun c hc => bracket_wordChar (hs c hc)

theorem containsSpace_word (hs : ∀ c ∈ s, wordChar c = true) : H.containsSpace s = false := by
  rw [Bool.eq_false_iff, ne_eq, H.containsSpace_iff]
  exact fun mem => ne_of_wordChar (hs ' ' mem) (by decide) rfl

theorem errorCheck_word (thought : Text) (hs : ∀ c ∈ s, wordChar c = true) :
    errorCheck H thought s nameTargets = .ok () := by
  have outside : Outside bracket (fun c => wordChar c = true) s := word_outside hs fun _ h => h
  simp [errorCheck, containsParen_word H hs, containsSpace_word H hs, nameTargets,
    not_contains H _ outside (by decide : ¬ wordChar '.' = true),
    not_contains H _ outside (by decide : ¬ wordChar '-' = true),
    not_contains H _ outside (by decide : ¬ wordChar '*' = true),
    not_contains H _ outside (by decide : ¬ wordChar ' ' = true)]

/-- A text without operators outside parentheses is no default list and is not split at a
binary operator. -/
theorem parseExpression_atom (fuel : ℕ) (hs : Solid s) (atoms : Outside bracket atomChar s) :
    parseExpression H (fuel + 1) s =
      if H.containsOutsideParens ['.'] s then parseDotted H (parseExpression H fuel) s
      else if s.head? = some '(' ∧ s.getLast? = some ')' then
        parseExpression H fuel (H.nextParenGroup s).1
      else if (s.headD ' ').isDigit then parseConstant H s else parseVarref H s := by
  have notDefault : s ≠ defaultList := by
    rintro rfl
    exact not_atomChar (by decide)
      (atoms.outside ['d', 'e', 'f', 'a', 'u', 'l', 't'] ' ' ['l', 'i', 's', 't'] rfl rfl)
  have none : binopSymbols.find? (fun cause => H.containsOutsideParens cause s) = none := by
    refine List.find?_eq_none.mpr fun sub hsub => ?_
    obtain ⟨c, rest, rfl, hc⟩ := binopSymbols_cons sub hsub
    have quiet : ¬ atomChar c := not_atomChar (by simp [hc])
    simp [not_contains H rest atoms quiet]
  have noStar : H.prefixEqual ['*'] s = false := by
    rw [Bool.eq_false_iff, ne_eq, H.prefixEqual_iff]
    rintro ⟨rest, rfl⟩
    exact not_atomChar (by decide) (atoms.outside [] '*' rest rfl rfl)
  have noArrow := not_contains H ['>'] atoms (not_atomChar (by decide : '-' ∈ _))
  simp only [parseExpression, trim_self H hs, notDefault, if_false, none, noStar, noArrow,
    Bool.false_eq_true]

theorem splitsLast_dot {front behind : Text} {p : Char → Prop} (hf : Balanced front)
    (hb : Outside bracket p behind) (hp : ¬ p '.') :
    SplitsLast bracket ['.'] (front ++ '.' :: behind) front behind := by
  have last : ¬ Occurs bracket ['.'] ([] ++ behind) := not_occurs_of_outside hb hp
  simpa using splitsLast_of hf.closed (rfl : bracket '.' = 0) last

theorem contains_dot {front behind : Text} (hf : Balanced front) (hb : Balanced behind) :
    H.containsOutsideParens ['.'] (front ++ '.' :: behind) = true := by
  rw [H.containsOutsideParens_iff _ _ (by simp) (hf.append (.cons rfl trivial hb))]
  exact ⟨front, behind, by simp, hf.closed⟩

theorem parseExpression_var (fuel : ℕ) (x : Identifier) :
    parseExpression H (fuel + 1) x.text = do return .varReference (← store x.text) := by
  have solid : Solid x.text := .of_word x.nonempty x.word
  have outside : Outside bracket (fun c => wordChar c = true) x.text :=
    word_outside x.word fun _ h => h
  have noDot := not_contains H [] outside (by decide : ¬ wordChar '.' = true)
  have noParen : x.text.head? ≠ some '(' := by
    intro h
    exact ne_of_wordChar (x.word '(' (List.mem_of_mem_head? h)) (by decide) rfl
  have noDigit : (x.text.headD ' ').isDigit = false := by
    obtain ⟨c, rest, h⟩ := List.exists_cons_of_ne_nil x.nonempty
    have := x.start c (by simp [h])
    simp [h, this]
  rw [parseExpression_atom H fuel solid (outside.mono fun c hc => .inl hc)]
  simp only [noDot, noParen, noDigit, Bool.false_eq_true, false_and, if_false, parseVarref,
    trim_self H solid]
  cases hstore : store x.text with
  | error e => rfl
  | ok y =>
      obtain rfl : x.text = y := by
        unfold store at hstore
        split at hstore
        · exact Except.ok.inj hstore
        · cases hstore
      simp [errorCheck_word H _ x.word, bind, Except.bind, pure, Except.pure]

theorem parseExpression_const (fuel : ℕ) {i : ℕ} (hi : i < 2 ^ 31) :
    parseExpression H (fuel + 1) (Nat.toDigits 10 i) = .ok (.constant i) := by
  have solid : Solid (Nat.toDigits 10 i) := .of_word Nat.toDigits_ne_nil (digits_word i)
  have outside : Outside bracket (fun c => wordChar c = true) (Nat.toDigits 10 i) :=
    word_outside (digits_word i) fun _ h => h
  have noDot := not_contains H [] outside (by decide : ¬ wordChar '.' = true)
  obtain ⟨c, rest, hcons⟩ := List.exists_cons_of_ne_nil (Nat.toDigits_ne_nil (n := i) (b := 10))
  have digit : c.isDigit = true :=
    Nat.isDigit_of_mem_toDigits (b := 10) (n := i) (by decide) (by decide) (by simp [hcons])
  have noParen : c ≠ '(' := by
    rintro rfl
    exact absurd digit (by decide)
  have first : (Nat.toDigits 10 i).headD ' ' = c := by simp [hcons]
  have notParen : (Nat.toDigits 10 i).head? ≠ some '(' := by simp [hcons, noParen]
  rw [parseExpression_atom H fuel solid (outside.mono fun c hc => .inl hc)]
  simp only [noDot, first, digit, notParen, false_and, if_false, if_true, Bool.false_eq_true,
    parseConstant, H.parseInt_eq i hi]

theorem Surface.Primary.atoms {e : Surface} (h : e.Primary) (grammar : e.Grammatical) :
    Outside bracket atomChar e.text :=
  (text_outside grammar).2 h.spine_eq

theorem parseExpression_field (fuel : ℕ) {e : Surface} (f : Identifier) (primary : e.Primary)
    (grammar : e.Grammatical) :
    parseExpression H (fuel + 1) (Surface.field e f).text = do
      let Struct ← parseExpression H fuel e.text
      return .fieldReference Struct (← store f.text) := by
  have atoms := Surface.Primary.atoms (e := .field e f) trivial ⟨primary, grammar⟩
  have solid := Surface.text_solid (.field e f)
  have behind : Outside bracket (fun c => wordChar c = true) f.text :=
    word_outside f.word fun _ h => h
  have solidF : Solid f.text := .of_word f.nonempty f.word
  have dot := contains_dot H (balanced_text grammar) (behind.mono fun _ _ => trivial)
  have split := H.lastSplit_eq ['.'] _ _ _ (atoms.mono fun _ _ => trivial)
    (splitsLast_dot (balanced_text grammar) behind (by decide))
  have noArrow := not_contains H ['>'] behind (by decide : ¬ wordChar '-' = true)
  have noBuiltin : builtinOps.find?
      (fun op => H.containsOutsideParens (op.name ++ ['(']) f.text) = none := by
    refine List.find?_eq_none.mpr fun op _ contains => ?_
    have occurs := (H.containsOutsideParens_iff _ _ (by simp)
      (behind.mono fun _ _ => trivial)).mp contains
    obtain ⟨pre, post, hf, -⟩ := occurs
    exact ne_of_wordChar (f.word '(' (by simp [hf])) (by decide) rfl
  rw [parseExpression_atom H fuel solid atoms]
  simp only [Surface.text_field] at split solid ⊢
  simp only [dot, if_true, parseDotted, split, trim_self H solidF, noArrow, Bool.false_eq_true,
    if_false, noBuiltin, containsParen_word H f.word, parseFieldref, trim_self H solid,
    errorCheck_word H _ f.word]
  rfl

theorem parseExpression_paren (fuel a : ℕ) {e : Surface} (b : ℕ) (grammar : e.Grammatical) :
    parseExpression H (fuel + 1) (Surface.paren a e b).text = parseExpression H fuel e.text := by
  have inner : Balanced (blanks a ++ e.text ++ blanks b) :=
    ((blanks_outside trivial a).append (balanced_text grammar)).append (blanks_outside trivial b)
  have solid := Surface.text_solid (.paren a e b)
  rw [← parseExpression_blanks H fuel a (Surface.text_solid e) b]
  simp only [Surface.text_paren] at solid ⊢
  generalize blanks a ++ e.text ++ blanks b = u at inner solid
  have quiet : Outside bracket (· = '(') ('(' :: u ++ [')']) := .group rfl rfl rfl inner
  have noDot := not_contains H [] quiet (by decide : '.' ≠ '(')
  have group : H.nextParenGroup ('(' :: u ++ [')']) = (u, []) :=
    H.nextParenGroup_eq [] '(' u ')' [] (by simp) rfl rfl inner
  have ends : ('(' :: u ++ [')']).head? = some '(' ∧ ('(' :: u ++ [')']).getLast? = some ')' :=
    ⟨rfl, List.getLast?_concat⟩
  rw [parseExpression_atom H fuel solid (quiet.mono fun c hc => .inr (.inr hc))]
  simp only [noDot, Bool.false_eq_true, if_false, ends, and_self, if_true, group]

theorem closed_word {w : Text} (hw : ∀ c ∈ w, wordChar c = true) : depth bracket w = 0 :=
  (word_outside hw fun _ _ => trivial : Balanced w).closed

/-- A word with a parenthesis behind it occurs in a call when it ends the called name. -/
theorem occurs_call {k w behind : Text} {p : Char → Prop} (nonempty : k ≠ [])
    (hk : ∀ c ∈ k, wordChar c = true) (hw : ∀ c ∈ w, wordChar c = true)
    (hb : Outside bracket p ('(' :: behind)) (quiet : ∀ c, wordChar c = true → ¬ p c) :
    Occurs bracket (k ++ ['(']) (w ++ '(' :: behind) ↔ k <:+ w := by
  constructor
  · rintro ⟨pre, post, h, hd⟩
    rw [List.append_assoc, List.append_assoc] at h
    obtain ⟨mid, rfl, hmid⟩ | ⟨mid, rfl, hmid⟩ := List.append_eq_append_iff.mp h
    · -- the word would be in the group behind the name
      obtain ⟨c, k, rfl⟩ := List.exists_cons_of_ne_nil nonempty
      have outside : depth bracket mid = 0 := by simpa [closed_word hw] using hd
      exact absurd (hb.outside mid c _ hmid outside) (quiet c (hk c List.mem_cons_self))
    · have notParen : ∀ c, wordChar c = true → c ≠ '(' := fun c hc => ne_of_wordChar hc
      obtain ⟨x, rfl, hx⟩ | ⟨x, rfl, hx⟩ := List.append_eq_append_iff.mp hmid
      · cases x with
        | nil => exact ⟨pre, by simp⟩
        | cons c x =>
            obtain ⟨rfl, -⟩ := List.cons.inj hx
            exact absurd rfl (notParen _ (hw _ (by simp)))
      · cases x with
        | nil => exact ⟨pre, by simp⟩
        | cons c x =>
            obtain ⟨rfl, -⟩ := List.cons.inj hx
            exact absurd rfl (notParen _ (hk _ (by simp)))
  · rintro ⟨pre, rfl⟩
    exact ⟨pre, behind, by simp, closed_word fun c hc => hw c (List.mem_append_left _ hc)⟩

/-- The parsed arguments of a call. -/
theorem parseArgs_eq (fuel g : ℕ) {args : List Surface} (grammar : ∀ a ∈ args, a.Grammatical) :
    parseArgs H (parseExpression H fuel)
        (List.intercalate [','] (Surface.argPieces g (args.map Surface.text))) =
      if args.length ≤ maxVarLength then args.mapM fun a => parseExpression H fuel a.text
      else .error .notConstant := by
  have outside : ∀ s ∈ args.map Surface.text, Outside bracket (· ≠ ',') s := by
    intro s hs
    obtain ⟨a, ha, rfl⟩ := List.mem_map.mp hs
    exact (Surface.text_outside (grammar a ha)).1.mono fun c hc => ne_comma_of_exprChar hc
  have split := H.splitOutsideParens_eq ',' maxVarLength
    (Surface.argPieces g (args.map Surface.text)) (by cases args <;> simp [Surface.argPieces])
    (Surface.argPieces_outside (by decide) outside)
  rw [parseArgs, split]
  cases args with
  | nil => rfl
  | cons a args =>
      have nonempty : ∀ b : Surface, ¬ b.text = [] := fun b => b.text_solid.ne_nil
      have padded : ∀ b : Surface, parseExpression H fuel (blanks g ++ b.text) =
          parseExpression H fuel b.text := fun b => by
        simpa [blanks] using parseExpression_blanks H fuel g b.text_solid 0
      by_cases few : args.length + 1 ≤ maxVarLength
      · simp [Surface.argPieces, few, nonempty, padded, List.filter_map, Function.comp_def,
          List.mapM_map]
      · simp [Surface.argPieces, few]

/-- The argument text of a call. -/
theorem args_balanced {g : ℕ} {args : List Surface} (grammar : ∀ a ∈ args, a.Grammatical) :
    Balanced (List.intercalate [','] (Surface.argPieces g (args.map Surface.text))) := by
  refine .intercalate rfl trivial (Surface.argPieces_outside trivial fun s hs => ?_)
  obtain ⟨a, ha, rfl⟩ := List.mem_map.mp hs
  exact balanced_text (grammar a ha)

/-- What stands behind the last dot of a call. -/
theorem called_outside (op : Identifier) {u : Text} (inner : Balanced u) :
    Outside bracket (fun c => wordChar c = true ∨ c = '(') (op.text ++ '(' :: u ++ [')']) := by
  have group : Outside bracket (· = '(') ('(' :: u ++ [')']) := .group rfl rfl rfl inner
  simpa using (word_outside op.word fun c hc => Or.inl hc).append (group.mono fun c hc => .inr hc)

theorem lastSplit_call {front : Text} (op : Identifier) {u : Text} (hf : Balanced front)
    (inner : Balanced u) :
    H.lastSplit ['.'] (front ++ '.' :: (op.text ++ '(' :: u ++ [')'])) =
      (front, op.text ++ '(' :: u ++ [')']) := by
  have behind := called_outside op inner
  exact H.lastSplit_eq ['.'] _ _ _ (hf.append (.cons rfl trivial (behind.mono fun _ _ => trivial)))
    (splitsLast_dot hf behind (by decide))

theorem parseOperation_call (fuel before g : ℕ) {e : Surface} (op : Identifier)
    {args : List Surface} (grammar : e.Grammatical) (all : ∀ a ∈ args, a.Grammatical) :
    parseOperation H (parseExpression H fuel) (blanks before ++ (Surface.call e op g args).text) =
      do
        let name ← store op.text
        let args ← (if args.length ≤ maxVarLength then
            args.mapM fun a => parseExpression H fuel a.text
          else .error .notConstant)
        let Hndl ← parseExpression H fuel e.text
        return ⟨name, args, Hndl⟩ := by
  have inner := args_balanced (g := g) all
  have parsed := parseArgs_eq H fuel g all
  have padded := parseExpression_blanks H fuel before e.text_solid 0
  simp only [blanks, List.replicate_zero, List.append_nil] at padded
  simp only [Surface.text_call]
  generalize List.intercalate [','] (Surface.argPieces g (args.map Surface.text)) = u
    at inner parsed
  have split := lastSplit_call H op
    ((blanks_outside trivial before).append (balanced_text grammar)) inner
  rw [List.append_assoc] at split
  have name : H.preParen (op.text ++ '(' :: u ++ [')']) = op.text := by
    simpa using H.preParen_eq op.text (u ++ [')']) fun c hc => bracket_wordChar (op.word c hc)
  have next : H.nextParenGroup (op.text ++ '(' :: u ++ [')']) = (u, []) :=
    H.nextParenGroup_eq op.text '(' u ')' [] (fun c hc => bracket_wordChar (op.word c hc)) rfl rfl
      inner
  rw [parseOperation, split]
  simp only [name, next, parsed, blanks, padded]

theorem parseExpression_call (fuel g : ℕ) {e : Surface} (op : Identifier) {args : List Surface}
    (primary : e.Primary) (grammar : e.Grammatical) (all : ∀ a ∈ args, a.Grammatical) :
    parseExpression H (fuel + 1) (Surface.call e op g args).text =
      match builtinOps.find? fun b => b.name <:+ op.text with
      | some b => parseBuiltinOp H (parseExpression H fuel) (Surface.call e op g args).text b
      | none => do
        let name ← store op.text
        let args ← (if args.length ≤ maxVarLength then
            args.mapM fun a => parseExpression H fuel a.text
          else .error .notConstant)
        let Hndl ← parseExpression H fuel e.text
        return .operation name Hndl args := by
  have whole : (Surface.call e op g args).Grammatical :=
    ⟨primary, grammar, (Surface.grammaticalAll_iff args).mpr all⟩
  have atoms := Surface.Primary.atoms (e := .call e op g args) trivial whole
  have solid := Surface.text_solid (.call e op g args)
  have inner := args_balanced (g := g) all
  have operation := parseOperation_call H fuel 0 g op grammar all
  simp only [blanks, List.replicate_zero, List.nil_append] at operation
  simp only [Surface.text_call] at atoms solid operation ⊢
  generalize List.intercalate [','] (Surface.argPieces g (args.map Surface.text)) = u
    at inner operation atoms solid
  have solidBehind : Solid (op.text ++ '(' :: u ++ [')']) := by
    simpa using (Solid.of_word op.nonempty op.word).closed (t := '(' :: u)
  have behind := called_outside op inner
  have dot := contains_dot H (balanced_text grammar) (behind.mono fun _ _ => trivial)
  have noArrow := not_contains H ['>'] behind (by decide : ¬ (wordChar '-' = true ∨ '-' = '('))
  have builtin : (fun b : BuiltinOp => H.containsOutsideParens (b.name ++ ['('])
      (op.text ++ '(' :: u ++ [')'])) = fun b => decide (b.name <:+ op.text) := by
    funext b
    have group : Outside bracket (· = '(') ('(' :: u ++ [')']) := .group rfl rfl rfl inner
    have occurs := occurs_call (k := b.name) (by cases b <;> decide) (by cases b <;> decide)
      op.word group (by rintro c hc rfl; exact absurd hc (by decide))
    rw [Bool.eq_iff_iff, decide_eq_true_eq,
      H.containsOutsideParens_iff _ _ (by simp) (behind.mono fun _ _ => trivial), ← occurs]
    simp
  have hasParen : H.containsParen (op.text ++ '(' :: u ++ [')']) = true :=
    H.containsParen_of_mem _ (by simp)
  rw [parseExpression_atom H fuel solid atoms]
  simp only [dot, if_true, parseDotted, lastSplit_call H op (balanced_text grammar) inner,
    trim_self H solidBehind, noArrow, Bool.false_eq_true, if_false, builtin, hasParen,
    parseExprOperation, operation]
  cases builtinOps.find? fun b => decide (b.name <:+ op.text) with
  | some b => rfl
  | none => simp

/-- The symbol found in the text of a binary operator. -/
theorem find_symbol {l : Surface} {a : ℕ} {o : Operator} {b : ℕ} {r : Surface}
    (grammar : (Surface.binop l a o b r).Grammatical) :
    ∃ sym ∈ binopSymbols,
      binopSymbols.find? (fun cause =>
        H.containsOutsideParens cause (Surface.binop l a o b r).text) = some sym ∧
      (∃ o' ∈ l.spine ++ o :: r.spine, o'.shows sym = true) ∧
      ∀ o' ∈ l.spine ++ o :: r.spine, binopSymbols.idxOf sym ≤ o'.rank := by
  have contained : ∀ o' ∈ l.spine ++ o :: r.spine,
      H.containsOutsideParens o'.symbol (Surface.binop l a o b r).text = true := fun o' ho' =>
    (contains_symbol H grammar (symbol_mem o')).mpr ⟨o', ho', shows_symbol o'⟩
  cases found : binopSymbols.find? (fun cause =>
      H.containsOutsideParens cause (Surface.binop l a o b r).text) with
  | none => exact absurd (contained o (by simp)) (List.find?_eq_none.mp found _ (symbol_mem o))
  | some sym =>
      have mem := List.mem_of_find?_eq_some found
      refine ⟨sym, mem, rfl, ?_, fun o' ho' => find_symbol_le found (contained o' ho')⟩
      have contains := List.find?_some found
      exact (contains_symbol H grammar mem).mp contains

/-- The operator of a node is searched no later than those of its operands, and it is
neither `>=` nor `<=`. -/
def Surface.SearchedFirst (l : Surface) (o : Operator) (r : Surface) : Prop :=
  o ≠ .ge ∧ o ≠ .le ∧ ∀ o' ∈ l.spine ++ r.spine, o.rank ≤ o'.rank

theorem operatorChars_defaultList : ∀ c ∈ operatorChars, c ∉ defaultList := by decide

theorem parseExpression_binop_eq (fuel : ℕ) {e : Surface} (grammar : e.Grammatical) {sym : Text}
    (found : binopSymbols.find? (fun cause => H.containsOutsideParens cause e.text) = some sym) :
    parseExpression H (fuel + 1) e.text = parseBinop H (parseExpression H fuel) e.text sym := by
  have contains := List.find?_some found
  have notDefault : e.text ≠ defaultList := by
    intro h
    obtain ⟨c, rest, rfl, hc⟩ := binopSymbols_cons sym (List.mem_of_find?_eq_some found)
    obtain ⟨pre, post, hs, -⟩ :=
      (H.containsOutsideParens_iff _ _ (by simp) (balanced_text grammar)).mp contains
    have mem : c ∈ defaultList := by simp [← h, hs]
    exact absurd mem (operatorChars_defaultList c hc)
  simp only [parseExpression, trim_self H e.text_solid, notDefault, if_false, found]

/-- A node whose operator is searched first is split at that operator. -/
theorem parseExpression_binop (fuel : ℕ) {l : Surface} {a : ℕ} {o : Operator} {b : ℕ}
    {r : Surface} (grammar : (Surface.binop l a o b r).Grammatical) (first : l.SearchedFirst o r) :
    parseExpression H (fuel + 1) (Surface.binop l a o b r).text = do
      let L ← parseExpression H fuel l.text
      let R ← parseExpression H fuel r.text
      return .binOp (o.symbol.headD ' ') L R := by
  obtain ⟨hge, hle, ranks⟩ := first
  obtain ⟨sym, mem, found, ⟨o', ho', shows⟩, least⟩ := find_symbol H grammar
  have rank : o.rank ≤ o'.rank := by
    obtain h | h := List.mem_append.mp ho'
    · exact ranks o' (List.mem_append_left _ h)
    · obtain rfl | h := List.mem_cons.mp h
      · exact le_rfl
      · exact ranks o' (List.mem_append_right _ h)
  obtain rfl := shows_of_rank o o' hge hle rank shows (least o (by simp))
  obtain ⟨-, binds, grammarL, grammarR⟩ := id grammar
  have split := H.lastSplit_eq o.symbol _ _ _ (balanced_text grammar)
    (splitsLast_symbol l.text a o b grammarR (balanced_text grammarL) binds)
  have padL := parseExpression_blanks H fuel 0 l.text_solid a
  have padR := parseExpression_blanks H fuel b r.text_solid 0
  simp only [blanks, List.replicate_zero, List.nil_append, List.append_nil] at padL padR
  rw [parseExpression_binop_eq H fuel grammar found, parseBinop, split]
  simp only [blanks, padL, padR]

/-- A parsed node that stands for the operator was split at it. -/
theorem searchedFirst_of_parse {fuel : ℕ} {l : Surface} {a : ℕ} {o : Operator} {b : ℕ}
    {r : Surface} (grammar : (Surface.binop l a o b r).Grammatical) {c : Char} {L R : Expr Char}
    (parsed : parseExpression H fuel (Surface.binop l a o b r).text = .ok (.binOp c L R))
    (reads : readOperator c = some o) : l.SearchedFirst o r := by
  cases fuel with
  | zero => cases parsed
  | succ fuel =>
      obtain ⟨sym, mem, found, -, least⟩ := find_symbol H grammar
      rw [parseExpression_binop_eq H fuel grammar found, parseBinop] at parsed
      obtain ⟨L', -, rest⟩ := except_bind_ok parsed
      obtain ⟨R', -, rest⟩ := except_bind_ok rest
      have same : c = sym.headD ' ' := by
        cases rest
        rfl
      obtain ⟨hge, hle, rank⟩ := rank_of_read o sym mem (same ▸ reads)
      refine ⟨hge, hle, fun o' ho' => rank.trans (least o' ?_)⟩
      obtain h | h := List.mem_append.mp ho'
      · exact List.mem_append_left _ h
      · exact List.mem_append_right _ (List.mem_cons_of_mem _ h)

end Equations

section Agreement

/-- The parsed tree, with its operators read, is the tree of the grammar. -/
def Agrees (r : Except ParseError (Expr Char)) (e : Expr Operator) : Prop :=
  ∃ a, r = .ok a ∧ a.map readOperator = e.map some

@[simp] theorem Expr.mapAll_eq {O P : Type} (f : O → P) (es : List (Expr O)) :
    mapAll f es = es.map (map f) := by
  induction es with
  | nil => rfl
  | cons e es ih => simp [mapAll, ih]

theorem store_eq_ok {s t : Text} : store s = .ok t ↔ s.length < maxVarLength ∧ s = t := by
  unfold store
  split_ifs with h <;> simp [h]

variable {p q : Except ParseError (Expr Char)} {e f : Expr Operator}

theorem agrees_varReference {s : Text} :
    Agrees (do return .varReference (← store s)) (.varReference s) ↔ s.length < maxVarLength := by
  constructor
  · rintro ⟨a, h, -⟩
    obtain ⟨t, ht, -⟩ := except_bind_ok h
    exact (store_eq_ok.mp ht).1
  · intro short
    exact ⟨.varReference s, by simp [store, short], rfl⟩

theorem agrees_fieldReference {s : Text} :
    Agrees (do let S ← p; return .fieldReference S (← store s)) (.fieldReference e s) ↔
      Agrees p e ∧ s.length < maxVarLength := by
  constructor
  · rintro ⟨a, h, same⟩
    obtain ⟨S, hS, h⟩ := except_bind_ok h
    obtain ⟨t, ht, h⟩ := except_bind_ok h
    obtain ⟨short, rfl⟩ := store_eq_ok.mp ht
    cases h
    simp only [Expr.map, Expr.fieldReference.injEq, and_true] at same
    exact ⟨⟨S, hS, same⟩, short⟩
  · rintro ⟨⟨S, rfl, same⟩, short⟩
    exact ⟨.fieldReference S s, by simp [store, short, bind, Except.bind, pure, Except.pure],
      by simp [Expr.map, same]⟩

theorem agrees_binOp {c : Char} {o : Operator} :
    Agrees (do let L ← p; let R ← q; return .binOp c L R) (.binOp o e f) ↔
      readOperator c = some o ∧ Agrees p e ∧ Agrees q f := by
  constructor
  · rintro ⟨a, h, same⟩
    obtain ⟨L, hL, h⟩ := except_bind_ok h
    obtain ⟨R, hR, h⟩ := except_bind_ok h
    cases h
    simp only [Expr.map, Expr.binOp.injEq] at same
    exact ⟨same.1, ⟨L, hL, same.2.1⟩, R, hR, same.2.2⟩
  · rintro ⟨reads, ⟨L, rfl, sameL⟩, R, rfl, sameR⟩
    exact ⟨.binOp c L R, rfl, by simp [Expr.map, reads, sameL, sameR]⟩

/-- The parsed arguments agree when each does. -/
theorem agrees_mapM {α : Type} {parse : α → Except ParseError (Expr Char)}
    {tree : α → Expr Operator} {args : List α} :
    (∃ as, args.mapM parse = .ok as ∧
        as.map (Expr.map readOperator) = (args.map tree).map (Expr.map some)) ↔
      ∀ a ∈ args, Agrees (parse a) (tree a) := by
  induction args with
  | nil => simp [pure, Except.pure]
  | cons b args ih =>
      rw [List.forall_mem_cons, ← ih]
      constructor
      · rintro ⟨as, h, same⟩
        rw [List.mapM_cons] at h
        obtain ⟨a, ha, h⟩ := except_bind_ok h
        obtain ⟨rest, hrest, h⟩ := except_bind_ok h
        cases h
        simp only [List.map_cons, List.cons.injEq] at same
        exact ⟨⟨a, ha, same.1⟩, rest, hrest, same.2⟩
      · rintro ⟨⟨a, ha, same⟩, rest, hrest, sames⟩
        refine ⟨a :: rest, ?_, by simp [same, sames]⟩
        simp [ha, hrest, bind, Except.bind, pure, Except.pure]

theorem agrees_operation {parse : Surface → Except ParseError (Expr Char)} {args : List Surface}
    {s : Text} :
    Agrees (do
        let name ← store s
        let as ← (if args.length ≤ maxVarLength then args.mapM parse else .error .notConstant)
        let Hndl ← p
        return .operation name Hndl as) (.operation s e (args.map Surface.ast)) ↔
      Agrees p e ∧ s.length < maxVarLength ∧ args.length ≤ maxVarLength ∧
        ∀ a ∈ args, Agrees (parse a) a.ast := by
  rw [← agrees_mapM]
  constructor
  · rintro ⟨a, h, same⟩
    obtain ⟨name, hname, h⟩ := except_bind_ok h
    obtain ⟨short, rfl⟩ := store_eq_ok.mp hname
    obtain ⟨as, has, h⟩ := except_bind_ok h
    obtain ⟨Hndl, hHndl, h⟩ := except_bind_ok h
    cases h
    simp only [Expr.map, Expr.operation.injEq, true_and, Expr.mapAll_eq] at same
    split_ifs at has with few
    exact ⟨⟨Hndl, hHndl, same.1⟩, short, few, as, has, same.2⟩
  · rintro ⟨⟨Hndl, rfl, sameH⟩, short, few, as, has, same⟩
    refine ⟨.operation s Hndl as, ?_, by simp [Expr.map, sameH, same]⟩
    simp [store, short, few, has, bind, Except.bind, pure, Except.pure]

/-- Builtin operations are no operation nodes. -/
theorem not_agrees_builtin (H : StringHelpers) {parse : Text → Except ParseError (Expr Char)}
    {str name : Text} {op : BuiltinOp} {es : List (Expr Operator)} :
    ¬ Agrees (parseBuiltinOp H parse str op) (.operation name e es) := by
  rintro ⟨a, h, same⟩
  obtain ⟨Hndl, -, h⟩ := except_bind_ok h
  cases op with
  | isValid =>
      cases h
      simp [Expr.map] at same
  | endorse =>
      obtain ⟨label, -, h⟩ := except_bind_ok h
      cases h
      simp [Expr.map] at same
  | ensure =>
      obtain ⟨label, -, h⟩ := except_bind_ok h
      cases h
      simp [Expr.map] at same

end Agreement

namespace Surface

section Conformance

mutual

/-- At every node the operator is searched first, no operation is taken for a builtin one,
and names and arguments fit their arrays. -/
def Conforms : Surface → Prop
  | var x => x.text.length < maxVarLength
  | const _ => True
  | field e f => e.Conforms ∧ f.text.length < maxVarLength
  | call e op _ args =>
    (∀ b : BuiltinOp, ¬ b.name <:+ op.text) ∧ e.Conforms ∧ op.text.length < maxVarLength ∧
      args.length ≤ maxVarLength ∧ ConformsAll args
  | paren _ e _ => e.Conforms
  | binop l _ o _ r => l.SearchedFirst o r ∧ l.Conforms ∧ r.Conforms

def ConformsAll : List Surface → Prop
  | [] => True
  | e :: es => e.Conforms ∧ ConformsAll es

end

@[simp] theorem conformsAll_iff (es : List Surface) : ConformsAll es ↔ ∀ e ∈ es, e.Conforms := by
  induction es with
  | nil => simp [ConformsAll]
  | cons e es ih => simp [ConformsAll, ih]

theorem length_le_intercalate {s : Text} {ss : List Text} (h : s ∈ ss) :
    s.length ≤ (List.intercalate [','] ss).length := by
  induction ss with
  | nil => simp at h
  | cons t ss ih =>
      obtain rfl | h := List.mem_cons.mp h
      · cases ss <;> simp
      · rw [List.intercalate_cons_of_ne_nil (List.ne_nil_of_mem h)]
        have := ih h
        simp
        omega

theorem arg_length_le {g : ℕ} {args : List Surface} {a : Surface} (h : a ∈ args) :
    a.text.length ≤ (List.intercalate [','] (argPieces g (args.map text))).length := by
  cases args with
  | nil => simp at h
  | cons b args =>
      obtain rfl | h := List.mem_cons.mp h
      · exact length_le_intercalate (by simp [argPieces])
      · have : blanks g ++ a.text ∈ argPieces g (text b :: args.map text) := by
          simp only [argPieces, List.mem_cons, List.map_map, List.mem_map]
          exact .inr ⟨a, h, rfl⟩
        refine le_trans ?_ (length_le_intercalate this)
        simp

variable (H : StringHelpers)

theorem fuel_succ {e : Surface} {fuel : ℕ} (enough : e.text.length ≤ fuel) :
    ∃ m, fuel = m + 1 ∧ e.text.length ≤ m + 1 := by
  have := List.length_pos_iff.mpr e.text_solid.ne_nil
  exact ⟨fuel - 1, by omega, by omega⟩

/-- Every parsed piece is shorter than the text it comes from, so the length of the text is
fuel enough. -/
theorem agrees_iff {e : Surface} (grammar : e.Grammatical) {fuel : ℕ}
    (enough : e.text.length ≤ fuel) :
    Agrees (parseExpression H fuel e.text) e.ast ↔ e.Conforms := by
  induction e using induction generalizing fuel with
  | var x =>
      obtain ⟨m, rfl, -⟩ := fuel_succ enough
      exact (parseExpression_var H m x).symm ▸ agrees_varReference
  | const i =>
      obtain ⟨m, rfl, -⟩ := fuel_succ enough
      rw [show (const i).text = Nat.toDigits 10 i from rfl, parseExpression_const H m grammar]
      simp [Agrees, Conforms, ast, Expr.map]
  | field e f he =>
      obtain ⟨m, rfl, enough⟩ := fuel_succ enough
      obtain ⟨primary, grammar⟩ := grammar
      simp only [text_field, List.length_append, List.length_cons] at enough
      rw [parseExpression_field H m f primary grammar]
      exact agrees_fieldReference.trans (and_congr_left' (he grammar (by omega)))
  | call e op g args he hargs =>
      obtain ⟨m, rfl, enough⟩ := fuel_succ enough
      obtain ⟨primary, grammar, all⟩ := grammar
      rw [grammaticalAll_iff] at all
      simp only [text_call, List.length_append, List.length_cons] at enough
      rw [parseExpression_call H m g op primary grammar all]
      simp only [ast, astAll_eq, Conforms, conformsAll_iff]
      cases found : builtinOps.find? fun b => decide (b.name <:+ op.text) with
      | some b =>
          have suffix : b.name <:+ op.text := by simpa using List.find?_some found
          exact ⟨fun h => absurd h (not_agrees_builtin H), fun h => absurd suffix (h.1 b)⟩
      | none =>
          have noSuffix : ∀ b : BuiltinOp, ¬ b.name <:+ op.text := fun b => by
            simpa using List.find?_eq_none.mp found b (by cases b <;> decide)
          refine agrees_operation.trans ?_
          rw [and_iff_right noSuffix, he grammar (by omega)]
          refine and_congr_right' (and_congr_right' (and_congr_right' (forall₂_congr fun a ha => ?_)))
          have := arg_length_le (g := g) ha
          exact hargs a ha (all a ha) (by omega)
  | paren a e b he =>
      obtain ⟨m, rfl, enough⟩ := fuel_succ enough
      simp only [text_paren, List.length_append, List.length_cons] at enough
      have inner : e.Grammatical := grammar
      rw [parseExpression_paren H m a b inner]
      exact he inner (by omega)
  | binop l a o b r hl hr =>
      obtain ⟨m, rfl, enough⟩ := fuel_succ enough
      obtain ⟨-, -, grammarL, grammarR⟩ := id grammar
      simp only [text_binop, List.length_append] at enough
      have symbol : 0 < o.symbol.length := by cases o <;> decide
      by_cases first : l.SearchedFirst o r
      · have reads : readOperator (o.symbol.headD ' ') = some o := by
          obtain ⟨hge, hle, -⟩ := first
          cases o <;> first | rfl | contradiction
        rw [parseExpression_binop H m grammar first]
        simp only [ast, Conforms, agrees_binOp, reads, first, true_and,
          hl grammarL (by omega : l.text.length ≤ m), hr grammarR (by omega : r.text.length ≤ m)]
      · refine ⟨fun ⟨t, parsed, same⟩ => ?_, fun h => absurd h.1 first⟩
        cases t <;> simp only [Expr.map, ast, reduceCtorEq, Expr.binOp.injEq] at same
        exact absurd (searchedFirst_of_parse H grammar parsed same.1) first

mutual

theorem elements_map {O P : Type} (f : O → P) : ∀ e : Expr O, (e.map f).elements = e.elements
  | .varReference _ => rfl
  | .fieldReference e _ => congrArg (· + 1) (elements_map f e)
  | .fieldPointerReference e _ => congrArg (· + 1) (elements_map f e)
  | .dereference e => congrArg (· + 1) (elements_map f e)
  | .constant _ => rfl
  | .binOp _ l r => by simp only [Expr.map, Expr.elements, elements_map f l, elements_map f r]
  | .isValid h => congrArg (· + 1) (elements_map f h)
  | .endorse _ h => congrArg (· + 1) (elements_map f h)
  | .ensure _ h => congrArg (· + 1) (elements_map f h)
  | .operation _ h args => by
    simp only [Expr.map, Expr.elements, elements_map f h, elementsAll_mapAll f args]

theorem elementsAll_mapAll {O P : Type} (f : O → P) :
    ∀ es : List (Expr O), Expr.elementsAll (Expr.mapAll f es) = Expr.elementsAll es
  | [] => rfl
  | e :: es => by simp only [Expr.mapAll, Expr.elementsAll, elements_map f e, elementsAll_mapAll f es]

end

end Conformance

section Letters

/-- A variable of one letter. -/
def letter (c : Char) (word : wordChar c = true) (start : c.isDigit = false) : Surface :=
  .var {
    text := [c]
    nonempty := by simp
    word := by simpa using word
    start := by simpa using start
    notReserved := by simp [reservedWords, BuiltinOp.name] }

def letterA : Surface := letter 'a' (by decide) (by decide)
def letterB : Surface := letter 'b' (by decide) (by decide)
def letterC : Surface := letter 'c' (by decide) (by decide)

/-- `a + b + c` -/
def sum : Surface := .binop (.binop letterA 1 .plus 1 letterB) 1 .plus 1 letterC

/-- `a && b == c` -/
def equalityInside : Surface := .binop letterA 1 .and 1 (.binop letterB 1 .eq 1 letterC)

end Letters

end Surface

end MixT.Parsing
