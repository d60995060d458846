import MixT.Parsing.Written

/-!
# Parsing printed statements

The parser looks for `return`, `while` and `if` anywhere outside parentheses,
so it takes an assignment or an operation for another statement when one of
these words is part of a name there. Every other statement is found by its own
form, and the tree of its text is the one that was printed.

-/

namespace MixT.Parsing

open MixT.Library MixT.Library.Nesting

section Agreement

/-- The parsed tree, with its operators read, is the printed one. -/
def AgreesStmt (r : Except ParseError (Stmt Char)) (s : Stmt Operator) : Prop :=
  ∃ a, r = .ok a ∧ a.map readOperator = s.map some

variable {p q : Except ParseError (Expr Char)} {e f : Expr Operator}
  {r r' : Except ParseError (Stmt Char)} {s t : Stmt Operator}

theorem exists_store_ok {x : Text} {P : Text → Prop} :
    (∃ y, store x = .ok y ∧ P y) ↔ x.length < maxVarLength ∧ P x := by
  simp only [store_eq_ok]
  exact ⟨fun ⟨y, ⟨short, same⟩, hy⟩ => ⟨short, same ▸ hy⟩, fun ⟨short, h⟩ => ⟨x, ⟨short, rfl⟩, h⟩⟩

theorem agrees_letIn {x : Text} :
    AgreesStmt (do
        let var ← store x
        let rhs ← p
        let Body ← r
        return .letIn var rhs Body) (.letIn x e s) ↔
      x.length < maxVarLength ∧ Agrees p e ∧ AgreesStmt r s := by
  simp only [AgreesStmt, Agrees, exists_bind_ok, exists_store_ok, exists_pure_ok, Stmt.map_letIn,
    Stmt.letIn.injEq, true_and, exists_pair]

theorem agrees_letRemote {x : Text} :
    AgreesStmt (do
        let var ← store x
        let rhs ← p
        let Body ← r
        return .letRemote var rhs Body) (.letRemote x e s) ↔
      x.length < maxVarLength ∧ Agrees p e ∧ AgreesStmt r s := by
  simp only [AgreesStmt, Agrees, exists_bind_ok, exists_store_ok, exists_pure_ok,
    Stmt.map_letRemote, Stmt.letRemote.injEq, true_and, exists_pair]

theorem agrees_assignment :
    AgreesStmt (do
        let Var ← p
        let rhs ← q
        return .assignment Var rhs) (.assignment e f) ↔ Agrees p e ∧ Agrees q f := by
  simp only [AgreesStmt, Agrees, exists_bind_ok, exists_pure_ok, Stmt.map_assignment,
    Stmt.assignment.injEq, exists_pair]

theorem agrees_ret : AgreesStmt (do let e ← p; return .ret e) (.ret e) ↔ Agrees p e := by
  simp only [AgreesStmt, Agrees, exists_bind_ok, exists_pure_ok, Stmt.map_ret, Stmt.ret.injEq]

theorem agrees_ifElse :
    AgreesStmt (do
        let c ← p
        let t ← r
        let e ← r'
        return .ifThen c t e) (.ifThen e s t) ↔
      Agrees p e ∧ AgreesStmt r s ∧ AgreesStmt r' t := by
  simp only [AgreesStmt, Agrees, exists_bind_ok, exists_pure_ok, Stmt.map_ifThen,
    Stmt.ifThen.injEq, exists_triple]

theorem agrees_ifThen :
    AgreesStmt (do
        let c ← p
        let t ← r
        return .ifThen c t .skip) (.ifThen e s .skip) ↔ Agrees p e ∧ AgreesStmt r s := by
  simp only [AgreesStmt, Agrees, exists_bind_ok, exists_pure_ok, Stmt.map_ifThen, Stmt.map_skip,
    Stmt.ifThen.injEq, and_true, exists_pair]

theorem agrees_whileLoop :
    AgreesStmt (do
        let c ← p
        let b ← r
        return .whileLoop c b) (.whileLoop e s) ↔ Agrees p e ∧ AgreesStmt r s := by
  simp only [AgreesStmt, Agrees, exists_bind_ok, exists_pure_ok, Stmt.map_whileLoop,
    Stmt.whileLoop.injEq, exists_pair]

theorem agrees_sequence :
    AgreesStmt (do
        let e ← r
        let next ← r'
        return .sequence e next) (.sequence s t) ↔ AgreesStmt r s ∧ AgreesStmt r' t := by
  simp only [AgreesStmt, exists_bind_ok, exists_pure_ok, Stmt.map_sequence, Stmt.sequence.injEq,
    exists_pair]

theorem agrees_stmtOperation {parse : Simple → Except ParseError (Expr Char)} {x : Text}
    {args : List Simple} :
    AgreesStmt (do
        let name ← store x
        let as ← (if args.length ≤ maxVarLength then args.mapM parse else .error .notConstant)
        let Hndl ← p
        return .operation name Hndl as)
        (.operation x e (args.map fun a => a.surface.ast)) ↔
      x.length < maxVarLength ∧ args.length ≤ maxVarLength ∧ Agrees p e ∧
        ∀ a ∈ args, Agrees (parse a) a.surface.ast := by
  rw [← agrees_mapM]
  constructor
  · rintro ⟨a, h, same⟩
    obtain ⟨name, hname, h⟩ := except_bind_ok h
    obtain ⟨short, rfl⟩ := store_eq_ok.mp hname
    obtain ⟨as, has, h⟩ := except_bind_ok h
    obtain ⟨Hndl, hHndl, h⟩ := except_bind_ok h
    cases h
    rw [Stmt.map_operation, Stmt.map_operation, Stmt.operation.injEq] at same
    split_ifs at has with few
    exact ⟨short, few, ⟨Hndl, hHndl, same.2.1⟩, as, has, same.2.2⟩
  · rintro ⟨short, few, ⟨Hndl, rfl, sameH⟩, as, has, same⟩
    refine ⟨.operation x Hndl as, ?_, by rw [Stmt.map_operation, Stmt.map_operation, sameH, same]⟩
    simp [store, short, few, has, bind, Except.bind, pure, Except.pure]

/-- What a sought word makes of a statement. -/
theorem not_agrees_return (H : StringHelpers) {parse : Text → Except ParseError (Expr Char)}
    {str : Text} (other : ∀ e, s ≠ .ret e) : ¬ AgreesStmt (parseReturn H parse str) s := by
  rintro ⟨a, h, same⟩
  obtain ⟨e, -, h⟩ := except_bind_ok h
  cases h
  cases s <;> simp [Stmt.map] at same
  exact other _ rfl

theorem not_agrees_while (H : StringHelpers) {parseE : Text → Except ParseError (Expr Char)}
    {parse : Text → Except ParseError (Stmt Char)} {str : Text}
    (other : ∀ c b, s ≠ .whileLoop c b) : ¬ AgreesStmt (parseWhile H parseE parse str) s := by
  rintro ⟨a, h, same⟩
  obtain ⟨c, -, h⟩ := except_bind_ok h
  obtain ⟨b, -, h⟩ := except_bind_ok h
  cases h
  cases s <;> simp [Stmt.map] at same
  exact other _ _ rfl

theorem not_agrees_if (H : StringHelpers) {parseE : Text → Except ParseError (Expr Char)}
    {parse : Text → Except ParseError (Stmt Char)} {str : Text}
    (other : ∀ c t e, s ≠ .ifThen c t e) : ¬ AgreesStmt (parseIf H parseE parse str) s := by
  rintro ⟨a, h, same⟩
  obtain ⟨c, -, h⟩ := except_bind_ok h
  obtain ⟨t, -, h⟩ := except_bind_ok h
  split_ifs at h
  · obtain ⟨e, -, h⟩ := except_bind_ok h
    cases h
    cases s <;> simp [Stmt.map] at same
    exact other _ _ _ rfl
  · cases h
    cases s <;> simp [Stmt.map] at same
    exact other _ _ _ rfl

end Agreement

section Equations

variable (H : StringHelpers)

/-- A name with what follows it in a path. -/
theorem Path.starts (p : Path) : ∃ (x : Identifier) (more : Text),
    p.surface.text = x.text ++ more ∧ ∀ c ∈ more.head?, wordChar c = false := by
  induction p with
  | var x => exact ⟨x, [], by simp [surface, Surface.text_var], by simp⟩
  | field p f ih =>
      obtain ⟨x, more, h, ends⟩ := ih
      refine ⟨x, more ++ '.' :: f.text, by simp [surface, Surface.text_field, h], ?_⟩
      cases more with
      | nil => simp [wordChar]
      | cons c more => simpa using ends

theorem notFirst_word (a : ℕ) {w v rest : Text} (nonempty : v ≠ []) (differ : v ≠ w)
    (hw : ∀ c ∈ w, wordChar c = true) (hv : ∀ c ∈ v, wordChar c = true)
    (ends : ∀ c ∈ rest.head?, wordChar c = false) :
    H.firstWordIs w (blanks a ++ (v ++ rest)) = false := by
  rw [← List.append_assoc]
  exact H.firstWordIs_other a w v rest nonempty differ hw hv ends

/-- A path does not start with a reserved word. -/
theorem notFirst_path (a : ℕ) {w rest : Text} (p : Path) (reserved : w ∈ reservedWords)
    (hw : ∀ c ∈ w, wordChar c = true) (ends : ∀ c ∈ rest.head?, wordChar c = false) :
    H.firstWordIs w (blanks a ++ (p.surface.text ++ rest)) = false := by
  obtain ⟨x, more, h, hmore⟩ := p.starts
  rw [h, List.append_assoc]
  refine notFirst_word H a x.nonempty ?_ hw x.word ?_
  · rintro rfl
    exact x.notReserved reserved
  · cases more with
    | nil => simpa using ends
    | cons c more => simpa using hmore

namespace Written

variable {k : Form}

/-- A single statement binds no variable. -/
theorem notFirst_single (s : Written .single) (a : ℕ) {w rest : Text}
    (hw : w = varWord ∨ w = remoteWord) :
    H.firstWordIs w (blanks a ++ (s.text ++ rest)) = false := by
  have reserved : w ∈ reservedWords := by obtain rfl | rfl := hw <;> decide
  have word : ∀ c ∈ w, wordChar c = true := by obtain rfl | rfl := hw <;> decide
  have blank : ∀ (t : Text), ∀ c ∈ (' ' :: t).head?, wordChar c = false := by simp [wordChar]
  cases s with
  | assign target e =>
      simp only [text_assign, List.append_assoc, List.cons_append]
      exact notFirst_path H a target reserved word (blank _)
  | ret e =>
      simp only [text_ret, List.append_assoc, List.cons_append]
      exact notFirst_word H a (by decide) (by obtain rfl | rfl := hw <;> decide) word (by decide)
        (blank _)
  | ifThen c t =>
      simp only [text_ifThen, List.append_assoc, List.cons_append]
      exact notFirst_word H a (by decide) (by obtain rfl | rfl := hw <;> decide) word (by decide)
        (blank _)
  | ifElse c t e =>
      simp only [text_ifElse, List.append_assoc, List.cons_append]
      exact notFirst_word H a (by decide) (by obtain rfl | rfl := hw <;> decide) word (by decide)
        (blank _)
  | whileLoop c body =>
      simp only [text_whileLoop, List.append_assoc, List.cons_append]
      exact notFirst_word H a (by decide) (by obtain rfl | rfl := hw <;> decide) word (by decide)
        (blank _)
  | braces s => exact H.firstWordIs_word_brace a w _ word
  | operation h op args =>
      simp only [text_operation, Surface.text_call, List.append_assoc, List.cons_append]
      exact notFirst_path H a h reserved word (by simp [wordChar])

theorem firstWord_keyword (a : ℕ) {w : Text} (rest : Text) (nonempty : w ≠ [])
    (word : ∀ c ∈ w, wordChar c = true) :
    H.firstWordIs w (blanks a ++ (w ++ ' ' :: rest)) = true ∧
      H.removeFirstWord (blanks a ++ (w ++ ' ' :: rest)) = ' ' :: rest := by
  rw [← List.append_assoc]
  exact ⟨H.firstWordIs_self a w _ nonempty word (by simp),
    H.removeFirstWord_eq a w _ nonempty word (by simp)⟩

theorem parse_blank (fuel : ℕ) (e : Simple) :
    parseExpression H fuel (' ' :: e.surface.text) = parseExpression H fuel e.surface.text := by
  simpa [blanks] using parseExpression_blanks H fuel 1 e.surface.text_solid 0

theorem parseBinding_eq (fuel : ℕ) (x : Identifier) (e : Simple) :
    parseBinding H (parseExpression H fuel)
        (' ' :: (x.text ++ (' ' :: '=' :: ' ' :: e.surface.text))) = do
      let var ← store x.text
      let rhs ← parseExpression H fuel e.surface.text
      return (var, rhs) := by
  have name : Outside bracket (· ≠ '=') x.text :=
    word_outside x.word fun c hc => ne_of_wordChar hc
  have front : Outside bracket (· ≠ '=') (' ' :: (x.text ++ [' '])) :=
    blank_outside (by decide) (name.append (blank_outside (by decide) .nil))
  have split := H.firstSplit_eq '=' _ (' ' :: e.surface.text) front
  simp only [List.cons_append, List.append_assoc, List.nil_append] at split
  have trim : H.trim (' ' :: (x.text ++ [' '])) = x.text := by
    simpa [blanks] using trim_solid H 1 (.of_word x.nonempty x.word) 1
  simp only [parseBinding, split, trim, parse_blank]

/-- The two parts of what follows the word that binds a variable. -/
theorem firstSplit_binding (x : Identifier) (e : Simple) (body : Written k) :
    H.firstSplit ',' (' ' :: (x.text ++ (' ' :: '=' :: ' ' ::
        (e.surface.text ++ (',' :: ' ' :: body.text))))) =
      (' ' :: (x.text ++ (' ' :: '=' :: ' ' :: e.surface.text)), ' ' :: body.text) := by
  have name : Outside bracket (· ≠ ',') x.text :=
    word_outside x.word fun c hc => ne_of_wordChar hc
  have expr : Outside bracket (· ≠ ',') e.surface.text :=
    (Surface.text_outside e.grammatical).1.mono fun c hc => ne_comma_of_exprChar hc
  have equals : Outside bracket (· ≠ ',') [' ', '=', ' '] :=
    fixed_outside (by decide) (by decide)
  have front : Outside bracket (· ≠ ',')
      (' ' :: (x.text ++ (' ' :: '=' :: ' ' :: e.surface.text))) :=
    blank_outside (by decide) (name.append (equals.append expr))
  simpa using H.firstSplit_eq ',' _ (' ' :: body.text) front

theorem parseStatement_letIn (fuel a : ℕ) (x : Identifier) (e : Simple) (body : Written k) :
    parseStatement H (fuel + 1) (blanks a ++ (letIn x e body).text) = do
      let var ← store x.text
      let rhs ← parseExpression H fuel e.surface.text
      let Body ← parseStatement H fuel (blanks 1 ++ body.text)
      return .letIn var rhs Body := by
  obtain ⟨first, rest⟩ := firstWord_keyword H a (w := varWord) (x.text ++ (' ' :: '=' :: ' ' ::
    (e.surface.text ++ (',' :: ' ' :: body.text)))) (by decide) (by decide)
  simp only [text_letIn, parseStatement, first, if_true, parseVar, rest, firstSplit_binding,
    parseBinding_eq, bind_assoc, pure_bind]
  rfl

theorem parseStatement_letRemote (fuel a : ℕ) (x : Identifier) (e : Simple) (body : Written k) :
    parseStatement H (fuel + 1) (blanks a ++ (letRemote x e body).text) = do
      let var ← store x.text
      let rhs ← parseExpression H fuel e.surface.text
      let Body ← parseStatement H fuel (blanks 1 ++ body.text)
      return .letRemote var rhs Body := by
  obtain ⟨first, rest⟩ := firstWord_keyword H a (w := remoteWord) (x.text ++ (' ' :: '=' :: ' ' ::
    (e.surface.text ++ (',' :: ' ' :: body.text)))) (by decide) (by decide)
  have notVar : H.firstWordIs varWord (blanks a ++ (remoteWord ++ ' ' :: (x.text ++
      (' ' :: '=' :: ' ' :: (e.surface.text ++ (',' :: ' ' :: body.text)))))) = false :=
    notFirst_word H a (by decide) (by decide) (by decide) (by decide) (by simp [wordChar])
  simp only [text_letRemote, parseStatement, notVar, Bool.false_eq_true, if_false, first, if_true,
    parseRemote, rest, firstSplit_binding, parseBinding_eq, bind_assoc, pure_bind]
  rfl

theorem contains_comma {front behind : Text} (hf : Balanced front) (hb : Balanced behind) :
    H.containsOutsideParens [','] (front ++ ',' :: behind) = true := by
  rw [H.containsOutsideParens_iff _ _ (by simp) (hf.append (.cons rfl trivial hb))]
  exact ⟨front, behind, by simp, hf.closed⟩

theorem parseStatement_sequence (fuel a : ℕ) (s : Written .single) (next : Written k) :
    parseStatement H (fuel + 1) (blanks a ++ (sequence s next).text) = do
      let e ← parseStatement H fuel (blanks a ++ s.text)
      let next ← parseStatement H fuel (blanks 1 ++ next.text)
      return .sequence e next := by
  have notVar : H.firstWordIs varWord (blanks a ++ (s.text ++ ',' :: ' ' :: next.text)) = false :=
    notFirst_single H s a (.inl rfl)
  have notRemote :
      H.firstWordIs remoteWord (blanks a ++ (s.text ++ ',' :: ' ' :: next.text)) = false :=
    notFirst_single H s a (.inr rfl)
  have front : Outside bracket (· ≠ ',') (blanks a ++ s.text) :=
    (blanks_outside (by decide) a).append s.noComma
  have behind : Balanced (' ' :: next.text) := .cons rfl trivial next.balanced
  have comma := contains_comma H (front.mono fun _ _ => trivial) behind
  have split := H.firstSplit_eq ',' _ (' ' :: next.text) front
  simp only [text_sequence]
  rw [List.append_assoc] at comma split
  simp only [parseStatement, notVar, notRemote, comma, Bool.false_eq_true, if_false, if_true,
    parseSequence, split]
  rfl

/-- What is left of the order of tests for a single statement. -/
theorem parseStatement_single (fuel a : ℕ) (s : Written .single) :
    parseStatement H (fuel + 1) (blanks a ++ s.text) =
      if H.containsOutsideParens returnWord (blanks a ++ s.text) then
        parseReturn H (parseExpression H fuel) (blanks a ++ s.text)
      else if H.containsOutsideParens whileWord (blanks a ++ s.text) then
        parseWhile H (parseExpression H fuel) (parseStatement H fuel) (blanks a ++ s.text)
      else if H.containsOutsideParens ifWord (blanks a ++ s.text) then
        parseIf H (parseExpression H fuel) (parseStatement H fuel) (blanks a ++ s.text)
      else if H.containsOutsideParens ['='] (blanks a ++ s.text) then
        parseAssignment H (parseExpression H fuel) (blanks a ++ s.text)
      else if H.firstWordIs ['{'] (blanks a ++ s.text) then
        parseStatement H fuel (H.copyWithinParens (blanks a ++ s.text))
      else if H.containsParen (blanks a ++ s.text) then
        parseStmtOperation H (parseExpression H fuel) (blanks a ++ s.text)
      else if H.trim (blanks a ++ s.text) = [] then .ok .skip
      else .error (.noStatement (blanks a ++ s.text)) := by
  have notVar : H.firstWordIs varWord (blanks a ++ (s.text ++ [])) = false :=
    notFirst_single H s a (.inl rfl)
  have notRemote : H.firstWordIs remoteWord (blanks a ++ (s.text ++ [])) = false :=
    notFirst_single H s a (.inr rfl)
  rw [List.append_nil] at notVar notRemote
  have noComma := not_contains H []
    ((blanks_outside (by decide) a).append s.noComma) (by simp : ¬ ',' ≠ ',')
  simp only [parseStatement, notVar, notRemote, noComma, Bool.false_eq_true, if_false]

theorem contains_blanks (a : ℕ) {w : Text} (nonempty : w ≠ []) (noBlank : w.head? ≠ some ' ')
    (s : Written k) :
    H.containsOutsideParens w (blanks a ++ s.text) = true ↔ Occurs bracket w s.text := by
  obtain ⟨c, w, rfl⟩ := List.exists_cons_of_ne_nil nonempty
  rw [H.containsOutsideParens_iff _ _ nonempty ((blanks_outside trivial a).append s.balanced)]
  refine occurs_append_of_outside (blanks_outside (p := (· = ' ')) rfl a) ?_
  simpa using noBlank

theorem contains_front (a : ℕ) {w rest : Text} (nonempty : w ≠ []) (noBlank : w.head? ≠ some ' ')
    {s : Written k} (front : s.text = w ++ rest) :
    H.containsOutsideParens w (blanks a ++ s.text) = true :=
  (contains_blanks H a nonempty noBlank s).mpr ⟨[], rest, front, rfl⟩

/-- The first character of the word is nowhere outside parentheses. -/
theorem not_contains_blanks (a : ℕ) {c : Char} (w : Text) (blank : c ≠ ' ') {s : Written k}
    (quiet : Outside bracket (· ≠ c) s.text) :
    H.containsOutsideParens (c :: w) (blanks a ++ s.text) = false :=
  not_contains H w ((blanks_outside blank.symm a).append quiet) (by simp)

theorem parseStatement_ret (fuel a : ℕ) (e : Simple) :
    parseStatement H (fuel + 1) (blanks a ++ (ret e).text) = do
      let e ← parseExpression H fuel e.surface.text
      return .ret e := by
  have found := contains_front H a (s := ret e) (by decide) (by decide)
    (rfl : _ = returnWord ++ _)
  obtain ⟨-, rest⟩ := firstWord_keyword H a (w := returnWord) e.surface.text (by decide) (by decide)
  rw [parseStatement_single]
  simp only [found, if_true, parseReturn]
  simp only [text_ret, rest, parse_blank]

theorem parseStatement_whileLoop (fuel a : ℕ) (c : Simple) (body : Written k) :
    parseStatement H (fuel + 1) (blanks a ++ (whileLoop c body).text) = do
      let c ← parseExpression H fuel c.surface.text
      let b ← parseStatement H fuel (blanks 0 ++ body.text)
      return .whileLoop c b := by
  have noReturn := not_contains_blanks H a (returnWord.tail) (by decide : 'r' ≠ ' ')
    (whileLoop_outside c body (by decide))
  have found := contains_front H a (s := whileLoop c body) (by decide) (by decide)
    (rfl : _ = whileWord ++ _)
  obtain ⟨-, rest⟩ := firstWord_keyword H a (w := whileWord)
    (parens c.surface.text ++ (' ' :: braced body.text)) (by decide) (by decide)
  have condition := H.nextParenGroup_eq [' '] '(' c.surface.text ')' (' ' :: braced body.text)
    (by decide) rfl rfl (balanced_text c.grammatical)
  have block := H.copyWithinParens_eq [' '] '{' body.text '}' [] (by decide) rfl rfl body.balanced
    (by simp)
  simp only [returnWord, List.tail_cons] at noReturn
  rw [parseStatement_single]
  simp only [returnWord, noReturn, Bool.false_eq_true, if_false, found,
    if_true, parseWhile]
  simp only [text_whileLoop, rest]
  simp only [parens, braced, List.cons_append, List.append_assoc, List.nil_append] at condition block ⊢
  simp only [condition, block]
  rfl

/-- An `if` in front, where neither `return` nor `while` is outside parentheses. -/
theorem parseStatement_if (fuel a : ℕ) {s : Written .single} {rest : Text}
    (front : s.text = ifWord ++ rest) (noR : Outside bracket (· ≠ 'r') s.text)
    (noW : Outside bracket (· ≠ 'w') s.text) :
    parseStatement H (fuel + 1) (blanks a ++ s.text) =
      parseIf H (parseExpression H fuel) (parseStatement H fuel) (blanks a ++ s.text) := by
  have noReturn := not_contains_blanks H a returnWord.tail (by decide : 'r' ≠ ' ') noR
  have noWhile := not_contains_blanks H a whileWord.tail (by decide : 'w' ≠ ' ') noW
  have found := contains_front H a (by decide) (by decide) front
  simp only [returnWord, whileWord, List.tail_cons] at noReturn noWhile
  rw [parseStatement_single]
  simp only [returnWord, whileWord, noReturn, noWhile, Bool.false_eq_true,
    if_false, found, if_true]

theorem nextParenGroup_condition (a : ℕ) (c : Simple) (behind : Text) :
    H.nextParenGroup (blanks a ++ (ifWord ++ (' ' :: (parens c.surface.text ++ behind)))) =
      (c.surface.text, behind) := by
  have fixed : ∀ x ∈ ifWord ++ [' '], bracket x = 0 := by decide
  have quiet : ∀ x ∈ blanks a ++ (ifWord ++ [' ']), bracket x = 0 := by
    intro x hx
    obtain h | h := List.mem_append.mp hx
    · rw [mem_blanks h]
      rfl
    · exact fixed x h
  simpa [parens] using H.nextParenGroup_eq _ '(' c.surface.text ')' behind quiet rfl rfl
    (balanced_text c.grammatical)

theorem nextParenGroup_braced (s : Written k) (behind : Text) :
    H.nextParenGroup (' ' :: (braced s.text ++ behind)) = (s.text, behind) := by
  simpa [braced] using H.nextParenGroup_eq [' '] '{' s.text '}' behind (by decide) rfl rfl
    s.balanced

theorem parseStatement_ifThen (fuel a : ℕ) (c : Simple) (t : Written k) :
    parseStatement H (fuel + 1) (blanks a ++ (ifThen c t).text) = do
      let c ← parseExpression H fuel c.surface.text
      let t ← parseStatement H fuel (blanks 0 ++ t.text)
      return .ifThen c t .skip := by
  have thn := nextParenGroup_braced H t []
  have noElse := H.firstWordIs_blanks 0 elseWord (by decide)
  rw [parseStatement_if H fuel a (s := ifThen c t) rfl (ifThen_outside c t (by decide))
    (ifThen_outside c t (by decide))]
  simp only [blanks, List.replicate_zero, List.append_nil] at thn noElse
  simp only [parseIf, text_ifThen, nextParenGroup_condition, thn, noElse, Bool.false_eq_true, if_false]
  rfl

theorem parseStatement_ifElse {k' : Form} (fuel a : ℕ) (c : Simple) (t : Written k)
    (e : Written k') :
    parseStatement H (fuel + 1) (blanks a ++ (ifElse c t e).text) = do
      let c ← parseExpression H fuel c.surface.text
      let t ← parseStatement H fuel (blanks 0 ++ t.text)
      let e ← parseStatement H fuel (blanks 0 ++ e.text)
      return .ifThen c t e := by
  have thn := nextParenGroup_braced H t (' ' :: (elseWord ++ (' ' :: braced e.text)))
  have isElse : H.firstWordIs elseWord (' ' :: (elseWord ++ (' ' :: braced e.text))) = true :=
    (firstWord_keyword H 1 (w := elseWord) (braced e.text) (by decide) (by decide)).1
  have els : H.nextParenGroup (' ' :: (elseWord ++ (' ' :: braced e.text))) = (e.text, []) :=
    H.nextParenGroup_eq [' ', 'e', 'l', 's', 'e', ' '] '{' e.text '}' [] (by decide) rfl rfl
      e.balanced
  rw [parseStatement_if H fuel a (s := ifElse c t e) rfl (ifElse_outside c t e (by decide))
    (ifElse_outside c t e (by decide))]
  simp only [parseIf, text_ifElse, nextParenGroup_condition, thn, isElse, els, if_true]
  rfl

theorem parseStatement_braces (fuel a : ℕ) (s : Written k) :
    parseStatement H (fuel + 1) (blanks a ++ (braces s).text) =
      parseStatement H fuel (blanks 0 ++ s.text) := by
  have group : Outside bracket (· = '{') (braces s).text := braced_outside s.balanced rfl
  have quiet : ∀ c : Char, c ≠ '{' → Outside bracket (· ≠ c) (braces s).text :=
    fun c hc => group.mono fun x hx => by rw [hx]; exact hc.symm
  have noReturn := not_contains_blanks H a returnWord.tail (by decide : 'r' ≠ ' ')
    (quiet 'r' (by decide))
  have noWhile := not_contains_blanks H a whileWord.tail (by decide : 'w' ≠ ' ')
    (quiet 'w' (by decide))
  have noIf := not_contains_blanks H a ifWord.tail (by decide : 'i' ≠ ' ') (quiet 'i' (by decide))
  have noEquals := not_contains_blanks H a [] (by decide : '=' ≠ ' ') (quiet '=' (by decide))
  have brace : H.firstWordIs ['{'] (blanks a ++ (braces s).text) = true :=
    H.firstWordIs_brace a _
  have block : H.copyWithinParens (blanks a ++ (braces s).text) = s.text := by
    have blank : ∀ x ∈ blanks a, bracket x = 0 := fun x hx => by rw [mem_blanks hx]; rfl
    simpa [text_braces, braced] using
      H.copyWithinParens_eq (blanks a) '{' s.text '}' [] blank rfl rfl s.balanced (by simp)
  simp only [returnWord, whileWord, ifWord, List.tail_cons] at noReturn noWhile noIf
  rw [parseStatement_single]
  simp only [returnWord, whileWord, ifWord, noReturn, noWhile, noIf,
    noEquals, Bool.false_eq_true, if_false, brace, if_true, block]
  rfl

/-- The words that the parser looks for anywhere outside parentheses. -/
inductive Sought
  | ret
  | whileLoop
  | ifThen

def Sought.text : Sought → Text
  | ret => returnWord
  | whileLoop => whileWord
  | ifThen => ifWord

/-- No name outside parentheses contains a word that the parser looks for there. -/
def Plain (words : List Text) : Prop := ∀ (w : Sought), ∀ v ∈ words, ¬ w.text <:+: v

theorem Sought.nonempty (w : Sought) : w.text ≠ [] := by cases w <;> decide

theorem Sought.noBlank (w : Sought) : w.text.head? ≠ some ' ' := by cases w <;> decide

theorem Sought.word (w : Sought) : ∀ c ∈ w.text, wordChar c = true := by cases w <;> decide

theorem contains_sought_assign (a : ℕ) (target : Path) (e : Simple) (w : Sought) :
    H.containsOutsideParens w.text (blanks a ++ (assign target e).text) = true ↔
      ∃ v ∈ target.words ++ e.words, w.text <:+: v := by
  have nonempty := w.nonempty
  have word := w.word
  have equals : Outside bracket (fun c => wordChar c = false) [' ', '=', ' '] :=
    fixed_outside (by decide) (by decide)
  have quiet : ∀ c, wordChar c = true → ¬ wordChar c = false := by simp
  have behind := e.occurs (t := []) nonempty word (by simp)
  have middle := occurs_skip (t := e.surface.text) equals quiet nonempty word
  simp only [List.append_nil, not_occurs_nil nonempty, or_false] at behind
  simp only [List.cons_append, List.nil_append] at middle
  rw [contains_blanks H a nonempty w.noBlank, text_assign,
    target.occurs nonempty word (by simp [wordChar]), middle, behind]
  simp [or_and_right, exists_or]

theorem contains_sought_operation (a : ℕ) (h : Path) (op : Identifier) (args : List Simple)
    (w : Sought) :
    H.containsOutsideParens w.text (blanks a ++ (operation h op args).text) = true ↔
      ∃ v ∈ h.words ++ [op.text], w.text <:+: v := by
  have nonempty := w.nonempty
  have word := w.word
  have quiet : ∀ c, wordChar c = true → ¬ wordChar c = false := by simp
  have dot : Outside bracket (fun c => wordChar c = false) ['.'] := .single rfl (by decide)
  have inner := args_balanced (g := 1) (args_grammatical args)
  rw [contains_blanks H a nonempty w.noBlank]
  simp only [text_operation, Surface.text_call]
  generalize List.intercalate [','] (Surface.argPieces 1 ((args.map Simple.surface).map
    Surface.text)) = u at inner
  have group : Outside bracket (fun c => wordChar c = false) ('(' :: u ++ [')']) :=
    .group rfl rfl (by decide) inner
  have noGroup : ¬ Occurs bracket w.text ('(' :: u ++ [')']) := by
    have skip := occurs_skip (t := []) group quiet nonempty word
    rw [List.append_nil] at skip
    rw [skip]
    exact not_occurs_nil nonempty
  have name := occurs_name (t := '(' :: u ++ [')']) op.word nonempty word (by simp [wordChar])
  have behind := occurs_skip (t := op.text ++ ('(' :: u ++ [')'])) dot quiet nonempty word
  simp only [List.cons_append, List.nil_append] at name behind noGroup
  simp only [List.cons_append, List.append_assoc]
  rw [h.occurs nonempty word (by simp [wordChar]), behind, name]
  simp [noGroup, or_and_right, exists_or]

theorem parseStatement_assign (fuel a : ℕ) (target : Path) (e : Simple)
    (plain : Plain (target.words ++ e.words)) :
    parseStatement H (fuel + 1) (blanks a ++ (assign target e).text) = do
      let Var ← parseExpression H fuel target.surface.text
      let rhs ← parseExpression H fuel e.surface.text
      return .assignment Var rhs := by
  have no : ∀ w : Sought,
      H.containsOutsideParens w.text (blanks a ++ (assign target e).text) = false := by
    intro w
    rw [Bool.eq_false_iff, ne_eq, contains_sought_assign H a target e w]
    rintro ⟨v, hv, part⟩
    exact plain w v hv part
  have found : H.containsOutsideParens ['='] (blanks a ++ (assign target e).text) = true := by
    rw [contains_blanks H a (by simp) (by simp)]
    exact ⟨target.surface.text ++ [' '], ' ' :: e.surface.text, by simp [text_assign],
      ((balanced_text target.grammatical).append (.single rfl trivial)).closed⟩
  have noEquals : ∀ {e : Surface}, e.Grammatical → e.spine = [] →
      Outside bracket (· ≠ '=') e.text := fun h none =>
    ((Surface.text_outside h).2 none).mono fun c hc => by
      rintro rfl
      exact not_atomChar (by decide) hc
  have pieces := H.splitOutsideParens_eq '=' 2
    [blanks a ++ target.surface.text ++ blanks 1, blanks 1 ++ e.surface.text ++ blanks 0] (by simp)
    (by
      have front := noEquals target.grammatical target.primary.spine_eq
      have behind := noEquals e.grammatical e.spine_eq
      have blank : ∀ n, Outside bracket (· ≠ '=') (blanks n) := blanks_outside (by decide)
      simp only [List.mem_cons, List.not_mem_nil, or_false, forall_eq_or_imp, forall_eq]
      exact ⟨((blank a).append front).append (blank 1), ((blank 1).append behind).append (blank 0)⟩)
  have whole : List.intercalate ['='] [blanks a ++ target.surface.text ++ blanks 1,
      blanks 1 ++ e.surface.text ++ blanks 0] = blanks a ++ (assign target e).text := by
    simp [text_assign, blanks]
  rw [whole] at pieces
  have noReturn := no .ret
  have noWhile := no .whileLoop
  have noIf := no .ifThen
  simp only [Sought.text] at noReturn noWhile noIf
  rw [parseStatement_single]
  simp only [noReturn, noWhile, noIf, found,
    Bool.false_eq_true, if_false, if_true, parseAssignment, pieces]
  simp only [List.length_cons, List.length_nil, le_refl, if_true, List.getD_cons_zero,
    List.getD_cons_succ, parseExpression_blanks H fuel a target.surface.text_solid 1,
    parseExpression_blanks H fuel 1 e.surface.text_solid 0]

theorem parseStatement_operation (fuel a : ℕ) (h : Path) (op : Identifier) (args : List Simple)
    (plain : Plain (h.words ++ [op.text])) :
    parseStatement H (fuel + 1) (blanks a ++ (operation h op args).text) = do
      let name ← store op.text
      let args ← (if args.length ≤ maxVarLength then
          args.mapM fun a => parseExpression H fuel a.surface.text
        else .error .notConstant)
      let Hndl ← parseExpression H fuel h.surface.text
      return .operation name Hndl args := by
  have no : ∀ w : Sought,
      H.containsOutsideParens w.text (blanks a ++ (operation h op args).text) = false := by
    intro w
    rw [Bool.eq_false_iff, ne_eq, contains_sought_operation H a h op args w]
    rintro ⟨v, hv, part⟩
    exact plain w v hv part
  have noEquals : H.containsOutsideParens ['='] (blanks a ++ (operation h op args).text) = false := by
    refine not_contains_blanks H a [] (by decide : '=' ≠ ' ') ?_
    refine (((Surface.text_outside (call_grammatical h op args)).2 rfl).mono fun c hc => ?_)
    rintro rfl
    exact not_atomChar (by decide) hc
  have noBrace : H.firstWordIs ['{'] (blanks a ++ (operation h op args).text) = false := by
    obtain ⟨x, more, starts, -⟩ := h.starts
    obtain ⟨c, rest, hx⟩ := List.exists_cons_of_ne_nil x.nonempty
    have first := H.firstWordIs_brace_word a c (rest ++ (more ++ '.' :: (op.text ++ '(' ::
      List.intercalate [','] (Surface.argPieces 1 ((args.map Simple.surface).map Surface.text)) ++
        [')']))) (x.word c (by simp [hx]))
    simpa [text_operation, Surface.text_call, starts, hx] using first
  have paren : H.containsParen (blanks a ++ (operation h op args).text) = true :=
    H.containsParen_of_mem _ (by simp [text_operation, Surface.text_call])
  have call := parseOperation_call H fuel a 1 op h.grammatical (args_grammatical args)
  have noReturn := no .ret
  have noWhile := no .whileLoop
  have noIf := no .ifThen
  simp only [Sought.text] at noReturn noWhile noIf
  rw [parseStatement_single]
  simp only [noReturn, noWhile, noIf, noEquals,
    noBrace, paren, Bool.false_eq_true, if_false, if_true, parseStmtOperation]
  rw [text_operation, call]
  simp [List.mapM_map, Function.comp_def]

end Written

end Equations

section Recognition

namespace Written

variable (H : StringHelpers) {k : Form}

/-- Assignments and operations are plain, and expressions, names and arguments are those
that the expression parser gets right. -/
def Recognised {k : Form} : Written k → Prop
  | letIn x e body | letRemote x e body =>
    x.text.length < maxVarLength ∧ e.surface.Conforms ∧ body.Recognised
  | assign target e =>
    Plain (target.words ++ e.words) ∧ target.surface.Conforms ∧ e.surface.Conforms
  | ret e => e.surface.Conforms
  | ifThen c t => c.surface.Conforms ∧ t.Recognised
  | ifElse c t e => c.surface.Conforms ∧ t.Recognised ∧ e.Recognised
  | whileLoop c body => c.surface.Conforms ∧ body.Recognised
  | braces s => s.Recognised
  | operation h op args =>
    Plain (h.words ++ [op.text]) ∧ op.text.length < maxVarLength ∧ args.length ≤ maxVarLength ∧
      h.surface.Conforms ∧ ∀ a ∈ args, a.surface.Conforms
  | sequence s next => s.Recognised ∧ next.Recognised

theorem fuel_succ {s : Written k} {fuel : ℕ} (enough : s.text.length ≤ fuel) :
    ∃ m, fuel = m + 1 ∧ s.text.length ≤ m + 1 := by
  have nonempty : 0 < s.text.length := by
    cases s with
    | assign target e => simp [text_assign]
    | operation h op args => exact List.length_pos_iff.mpr (Surface.text_solid _).ne_nil
    | sequence s next => simp [text_sequence]
    | _ => exact Nat.succ_pos _
  exact ⟨fuel - 1, by omega, by omega⟩

/-- A single statement with a sought word outside parentheses that is none of the three. -/
theorem not_agrees_sought (fuel a : ℕ) {s : Written .single} {w : Sought}
    (found : H.containsOutsideParens w.text (blanks a ++ s.text) = true)
    (notRet : ∀ e, s.ast ≠ .ret e) (notWhile : ∀ c b, s.ast ≠ .whileLoop c b)
    (notIf : ∀ c t e, s.ast ≠ .ifThen c t e) :
    ¬ AgreesStmt (parseStatement H (fuel + 1) (blanks a ++ s.text)) s.ast := by
  rw [parseStatement_single]
  by_cases hasReturn : H.containsOutsideParens returnWord (blanks a ++ s.text) = true
  · rw [if_pos hasReturn]
    exact not_agrees_return H notRet
  by_cases hasWhile : H.containsOutsideParens whileWord (blanks a ++ s.text) = true
  · rw [if_neg hasReturn, if_pos hasWhile]
    exact not_agrees_while H notWhile
  by_cases hasIf : H.containsOutsideParens ifWord (blanks a ++ s.text) = true
  · rw [if_neg hasReturn, if_neg hasWhile, if_pos hasIf]
    exact not_agrees_if H notIf
  cases w <;> contradiction

theorem plain_or_sought (words : List Text) :
    Plain words ∨ ∃ w : Sought, ∃ v ∈ words, w.text <:+: v := by
  by_cases plain : Plain words
  · exact .inl plain
  · refine .inr ?_
    unfold Plain at plain
    push Not at plain
    exact plain

/-- Every parsed piece is shorter than the text it comes from. -/
theorem agreesStmt_iff (s : Written k) (a : ℕ) {fuel : ℕ} (enough : s.text.length ≤ fuel) :
    AgreesStmt (parseStatement H fuel (blanks a ++ s.text)) s.ast ↔ s.Recognised := by
  have agrees : ∀ (e : Surface) {m : ℕ}, e.Grammatical → e.text.length ≤ m →
      (Agrees (parseExpression H m e.text) e.ast ↔ e.Conforms) :=
    fun e m grammar enough => Surface.agrees_iff H grammar enough
  induction s generalizing a fuel with
  | letIn x e body ih =>
      obtain ⟨m, rfl, enough⟩ := fuel_succ enough
      simp only [text_letIn, List.length_append, List.length_cons] at enough
      rw [parseStatement_letIn]
      refine agrees_letIn.trans (and_congr_right' (and_congr ?_ ?_))
      · exact agrees _ e.grammatical (by omega)
      · exact ih 1 (by omega)
  | letRemote x e body ih =>
      obtain ⟨m, rfl, enough⟩ := fuel_succ enough
      simp only [text_letRemote, List.length_append, List.length_cons] at enough
      rw [parseStatement_letRemote]
      refine agrees_letRemote.trans (and_congr_right' (and_congr ?_ ?_))
      · exact agrees _ e.grammatical (by omega)
      · exact ih 1 (by omega)
  | assign target e =>
      obtain ⟨m, rfl, enough⟩ := fuel_succ enough
      simp only [text_assign, List.length_append, List.length_cons] at enough
      obtain plain | ⟨w, part⟩ := plain_or_sought (target.words ++ e.words)
      · rw [parseStatement_assign H m a target e plain]
        refine agrees_assignment.trans (Iff.trans (and_congr ?_ ?_) (and_iff_right plain).symm)
        · exact agrees _ target.grammatical (by omega)
        · exact agrees _ e.grammatical (by omega)
      · have found := (contains_sought_assign H a target e w).mpr part
        obtain ⟨v, hv, inside⟩ := part
        exact ⟨fun h => absurd h (not_agrees_sought H m a found (by simp [ast]) (by simp [ast])
          (by simp [ast])), fun h => absurd inside (h.1 w v hv)⟩
  | ret e =>
      obtain ⟨m, rfl, enough⟩ := fuel_succ enough
      simp only [text_ret, List.length_append, List.length_cons] at enough
      rw [parseStatement_ret]
      exact agrees_ret.trans (agrees _ e.grammatical (by omega))
  | ifThen c t ih =>
      obtain ⟨m, rfl, enough⟩ := fuel_succ enough
      simp only [text_ifThen, parens, braced, List.length_append, List.length_cons] at enough
      rw [parseStatement_ifThen]
      refine agrees_ifThen.trans (and_congr ?_ ?_)
      · exact agrees _ c.grammatical (by omega)
      · exact ih 0 (by omega)
  | ifElse c t e iht ihe =>
      obtain ⟨m, rfl, enough⟩ := fuel_succ enough
      simp only [text_ifElse, parens, braced, List.length_append, List.length_cons] at enough
      rw [parseStatement_ifElse]
      refine agrees_ifElse.trans (and_congr ?_ (and_congr ?_ ?_))
      · exact agrees _ c.grammatical (by omega)
      · exact iht 0 (by omega)
      · exact ihe 0 (by omega)
  | whileLoop c body ih =>
      obtain ⟨m, rfl, enough⟩ := fuel_succ enough
      simp only [text_whileLoop, parens, braced, List.length_append, List.length_cons] at enough
      rw [parseStatement_whileLoop]
      refine agrees_whileLoop.trans (and_congr ?_ ?_)
      · exact agrees _ c.grammatical (by omega)
      · exact ih 0 (by omega)
  | braces s ih =>
      obtain ⟨m, rfl, enough⟩ := fuel_succ enough
      simp only [text_braces, braced, List.length_append, List.length_cons] at enough
      rw [parseStatement_braces]
      exact ih 0 (by omega)
  | operation h op args =>
      obtain ⟨m, rfl, enough⟩ := fuel_succ enough
      simp only [text_operation, Surface.text_call, List.length_append, List.length_cons] at enough
      obtain plain | ⟨w, part⟩ := plain_or_sought (h.words ++ [op.text])
      · rw [parseStatement_operation H m a h op args plain]
        refine agrees_stmtOperation.trans (Iff.trans (and_congr_right' (and_congr_right'
          (and_congr ?_ (forall₂_congr fun b hb => ?_)))) (and_iff_right plain).symm)
        · exact agrees _ h.grammatical (by omega)
        · have := Surface.arg_length_le (g := 1) (List.mem_map_of_mem (f := Simple.surface) hb)
          exact agrees _ b.grammatical (by omega)
      · have found := (contains_sought_operation H a h op args w).mpr part
        obtain ⟨v, hv, inside⟩ := part
        exact ⟨fun h => absurd h (not_agrees_sought H m a found (by simp [ast]) (by simp [ast])
          (by simp [ast])), fun h => absurd inside (h.1 w v hv)⟩
  | sequence s next ihs ihn =>
      obtain ⟨m, rfl, enough⟩ := fuel_succ enough
      simp only [text_sequence, List.length_append, List.length_cons] at enough
      rw [parseStatement_sequence]
      refine agrees_sequence.trans (and_congr ?_ ?_)
      · exact ihs a (by omega)
      · exact ihn 1 (by omega)

theorem word_noSemicolon {w : Text} (hw : ∀ c ∈ w, wordChar c = true) : ';' ∉ w :=
  fun mem => ne_of_wordChar (hw ';' mem) (by decide) rfl

theorem blanks_noSemicolon (n : ℕ) : ';' ∉ blanks n :=
  fun mem => absurd (mem_blanks mem) (by decide)

theorem simple_noSemicolon (e : Simple) : ';' ∉ e.surface.text := by
  induction e with
  | var x => exact word_noSemicolon x.word
  | const i => exact word_noSemicolon (digits_word i)
  | op l o r hl hr =>
      have symbol : ';' ∉ o.symbol := by cases o <;> decide
      simp [Simple.surface, Surface.text_paren, Surface.text_binop, blanks_noSemicolon, hl, hr,
        symbol]

theorem path_noSemicolon (p : Path) : ';' ∉ p.surface.text := by
  induction p with
  | var x => exact word_noSemicolon x.word
  | field p f ih => simp [Path.surface, Surface.text_field, ih, word_noSemicolon f.word]

theorem args_noSemicolon {ss : List Text} (h : ∀ s ∈ ss, ';' ∉ s) :
    ';' ∉ List.intercalate [','] ss := by
  induction ss with
  | nil => simp
  | cons s ss ih =>
      have first := h s List.mem_cons_self
      cases ss with
      | nil => simpa using first
      | cons t ss =>
          have rest := ih fun u hu => h u (List.mem_cons_of_mem _ hu)
          simp [first, rest]

theorem noSemicolon (s : Written k) : ';' ∉ s.text := by
  have fixed : ∀ w ∈ [varWord, remoteWord, returnWord, whileWord, ifWord, elseWord], ';' ∉ w := by
    decide
  simp only [List.mem_cons, List.not_mem_nil, or_false, forall_eq_or_imp, forall_eq] at fixed
  obtain ⟨hvar, hremote, hreturn, hwhile, hif, helse⟩ := fixed
  induction s with
  | letIn x e body ih =>
      simp [text_letIn, hvar, word_noSemicolon x.word, simple_noSemicolon, ih]
  | letRemote x e body ih =>
      simp [text_letRemote, hremote, word_noSemicolon x.word, simple_noSemicolon, ih]
  | assign target e => simp [text_assign, path_noSemicolon, simple_noSemicolon]
  | ret e => simp [text_ret, hreturn, simple_noSemicolon]
  | ifThen c t ih => simp [text_ifThen, hif, parens, braced, simple_noSemicolon, ih]
  | ifElse c t e iht ihe =>
      simp [text_ifElse, hif, helse, parens, braced, simple_noSemicolon, iht, ihe]
  | whileLoop c body ih => simp [text_whileLoop, hwhile, parens, braced, simple_noSemicolon, ih]
  | braces s ih => simp [text_braces, braced, ih]
  | operation h op args =>
      have pieces : ';' ∉ List.intercalate [',']
          (Surface.argPieces 1 ((args.map Simple.surface).map Surface.text)) := by
        refine args_noSemicolon fun s hs => ?_
        cases args with
        | nil => simp_all [Surface.argPieces]
        | cons b args =>
            simp only [List.map_cons, Surface.argPieces, List.mem_cons, List.map_map,
              List.mem_map] at hs
            obtain rfl | ⟨c, -, rfl⟩ := hs
            · exact simple_noSemicolon b
            · simp [blanks_noSemicolon, simple_noSemicolon]
      simp [text_operation, Surface.text_call, path_noSemicolon, word_noSemicolon op.word] at pieces ⊢
      exact pieces
  | sequence s next ihs ihn => simp [text_sequence, ihs, ihn]

theorem elements_stmt {O P : Type} (f : O → P) (s : Stmt O) : (s.map f).elements = s.elements := by
  have expr := fun e : Expr O => Surface.elements_map f e
  induction s with
  | letIn x e s ih => simp only [Stmt.map_letIn, Stmt.elements, expr, ih]
  | letRemote x e s ih => simp only [Stmt.map_letRemote, Stmt.elements, expr, ih]
  | assignment x e => simp only [Stmt.map_assignment, Stmt.elements, expr]
  | ret e => simp only [Stmt.map_ret, Stmt.elements, expr]
  | ifThen c t e iht ihe => simp only [Stmt.map_ifThen, Stmt.elements, expr, iht, ihe]
  | whileLoop c b ih => simp only [Stmt.map_whileLoop, Stmt.elements, expr, ih]
  | operation x h args =>
      have all := Surface.elementsAll_mapAll f args
      rw [Expr.mapAll_eq] at all
      simp only [Stmt.map_operation, Stmt.elements, expr, all]
  | sequence s t ihs iht => simp only [Stmt.map_sequence, Stmt.elements, ihs, iht]
  | skip => rfl

/-- The statement parser, for every printed statement. -/
theorem parsesBack_iff (s : Written k) :
    AgreesStmt (parseTransaction H s.text) s.ast ↔ s.Recognised ∧ s.ast.elements ≤ 400 := by
  have semicolon : H.contains ';' s.text = false := by
    rw [Bool.eq_false_iff, ne_eq, H.contains_iff]
    exact s.noSemicolon
  have statement := agreesStmt_iff H s 0 (Nat.le_succ s.text.length)
  simp only [blanks, List.replicate_zero, List.nil_append] at statement
  have size : ∀ t : Stmt Char, t.map readOperator = s.ast.map some →
      t.elements = s.ast.elements := fun t same => by
    rw [← elements_stmt readOperator t, same, elements_stmt]
  rw [← statement, parseTransaction, semicolon]
  constructor
  · rintro ⟨t, h, same⟩
    obtain ⟨u, hu, h⟩ := except_bind_ok h
    split_ifs at h with fits
    · cases h
      exact ⟨⟨t, hu, same⟩, size t same ▸ fits⟩
  · rintro ⟨⟨t, h, same⟩, fits⟩
    refine ⟨t, ?_, same⟩
    rw [h]
    simp [bind, Except.bind, pure, Except.pure, size t same, fits]

section Iffy

def iffy : Identifier where
  text := ['i', 'f', 'f', 'y']
  nonempty := by simp
  word := by decide
  start := by rintro _ ⟨⟩; rfl
  notReserved := by decide

def letterB : Identifier where
  text := ['b']
  nonempty := by simp
  word := by decide
  start := by rintro _ ⟨⟩; rfl
  notReserved := by decide

/-- `iffy = b` is taken for a conditional. -/
theorem iffy_misparsed : ¬ AgreesStmt
    (parseTransaction .scanning (assign (.var iffy) (.var letterB)).text)
    (assign (.var iffy) (.var letterB)).ast := by
  rintro ⟨t, h, same⟩
  have parsed : parseTransaction .scanning (assign (.var iffy) (.var letterB)).text =
      .ok (.ifThen (.varReference []) .skip .skip) := rfl
  rw [parsed] at h
  cases h
  simp [ast, Stmt.map] at same

end Iffy

end Written

end Recognition

end MixT.Parsing
