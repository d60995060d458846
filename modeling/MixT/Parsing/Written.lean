import MixT.Parsing.Precedence
import MixT.Parsing.Statement

/-!
# Statements as they are written

The statements of the surface language with their text and their tree.
Expressions are variables, constants and operators in parentheses, targets and
handles are variables and their fields. A statement that takes all that follows
stands last or in braces, and braces leave no node.

-/

namespace MixT.Parsing

open MixT.Library.Nesting

section Operands

/-- Variables, constants of type `int`, and operators in parentheses. -/
inductive Simple
  | var (x : Identifier)
  | const (i : Fin (2 ^ 31))
  | op (l : Simple) (o : Operator) (r : Simple)

/-- A variable or a field of one. -/
inductive Path
  | var (x : Identifier)
  | field (p : Path) (f : Identifier)

def Simple.surface : Simple → Surface
  | var x => .var x
  | const i => .const i
  | op l o r => .paren 0 (.binop l.surface 1 o 1 r.surface) 0

def Path.surface : Path → Surface
  | var x => .var x
  | field p f => .field p.surface f

end Operands

section Names

/-- The names and constants outside parentheses. -/
def Simple.words : Simple → List Text
  | var x => [x.text]
  | const i => [Nat.toDigits 10 i]
  | op .. => []

def Path.words : Path → List Text
  | var x => [x.text]
  | field p f => p.words ++ [f.text]

theorem Path.primary (p : Path) : p.surface.Primary := by
  cases p <;> trivial

theorem Path.grammatical (p : Path) : p.surface.Grammatical := by
  induction p with
  | var x => trivial
  | field p f ih => exact ⟨p.primary, ih⟩

theorem Simple.spine_eq (e : Simple) : e.surface.spine = [] := by
  cases e <;> rfl

theorem Simple.grammatical (e : Simple) : e.surface.Grammatical := by
  induction e with
  | var x => trivial
  | const i => exact i.2
  | op l o r hl hr => exact ⟨by simp [l.spine_eq], by simp [r.spine_eq], hl, hr⟩

variable {sub t : Text}

/-- Occurrences of a word in a name and behind it. -/
theorem occurs_name {w : Text} (hw : ∀ c ∈ w, wordChar c = true) (nonempty : sub ≠ [])
    (word : ∀ c ∈ sub, wordChar c = true) (ends : ∀ c ∈ t.head?, wordChar c = false) :
    Occurs bracket sub (w ++ t) ↔ sub <:+: w ∨ Occurs bracket sub t :=
  occurs_word (q := fun c => wordChar c = true) (fun c hc => bracket_wordChar (hw c hc)) nonempty
    word fun c hc => by simp [ends c hc]

theorem occurs_skip {s : Text} {p : Char → Prop} (hs : Outside bracket p s)
    (quiet : ∀ c, wordChar c = true → ¬ p c) (nonempty : sub ≠ [])
    (word : ∀ c ∈ sub, wordChar c = true) :
    Occurs bracket sub (s ++ t) ↔ Occurs bracket sub t := by
  obtain ⟨c, rest, rfl⟩ := List.exists_cons_of_ne_nil nonempty
  exact occurs_append_of_outside hs (quiet c (word c List.mem_cons_self))

theorem Path.occurs (p : Path) (nonempty : sub ≠ []) (word : ∀ c ∈ sub, wordChar c = true)
    (ends : ∀ c ∈ t.head?, wordChar c = false) :
    Occurs bracket sub (p.surface.text ++ t) ↔
      (∃ w ∈ p.words, sub <:+: w) ∨ Occurs bracket sub t := by
  induction p generalizing t with
  | var x => simpa [words, surface, Surface.text_var] using occurs_name x.word nonempty word ends
  | field p f ih =>
      have dot : Outside bracket (· = '.') ['.'] := .single rfl rfl
      simp only [surface, Surface.text_field, List.append_assoc, List.cons_append]
      rw [ih (by simp [wordChar]), ← List.singleton_append,
        occurs_skip dot (by rintro c hc rfl; exact absurd hc (by decide)) nonempty word,
        occurs_name f.word nonempty word ends]
      simp [words, or_and_right, exists_or, or_assoc]

theorem Simple.occurs (e : Simple) (nonempty : sub ≠ []) (word : ∀ c ∈ sub, wordChar c = true)
    (ends : ∀ c ∈ t.head?, wordChar c = false) :
    Occurs bracket sub (e.surface.text ++ t) ↔
      (∃ w ∈ e.words, sub <:+: w) ∨ Occurs bracket sub t := by
  cases e with
  | var x => simpa [words, surface, Surface.text_var] using occurs_name x.word nonempty word ends
  | const i =>
      simpa [words, surface, Surface.text_const] using occurs_name (digits_word i) nonempty word ends
  | op l o r =>
      have group : Outside bracket (· = '(') (op l o r).surface.text := by
        have inner := balanced_text (e := .binop l.surface 1 o 1 r.surface) (op l o r).grammatical
        exact .group rfl rfl rfl (by simpa [blanks] using inner)
      rw [occurs_skip group (by rintro c hc rfl; exact absurd hc (by decide)) nonempty word]
      simp [words]

end Names

section Statements

/-- Whether a statement ends before a comma or takes all that follows. -/
inductive Form
  | single
  | extended

/-- Statements as they are written. Before a comma stands a single one. -/
inductive Written : Form → Type
  | letIn {k : Form} (x : Identifier) (e : Simple) (body : Written k) : Written .extended
  | letRemote {k : Form} (x : Identifier) (e : Simple) (body : Written k) : Written .extended
  | assign (target : Path) (e : Simple) : Written .single
  | ret (e : Simple) : Written .single
  | ifThen {k : Form} (c : Simple) (t : Written k) : Written .single
  | ifElse {k k' : Form} (c : Simple) (t : Written k) (e : Written k') : Written .single
  | whileLoop {k : Form} (c : Simple) (body : Written k) : Written .single
  | braces {k : Form} (s : Written k) : Written .single
  | operation (Hndl : Path) (op : Identifier) (args : List Simple) : Written .single
  | sequence {k : Form} (s : Written .single) (next : Written k) : Written .extended

namespace Written

variable {k : Form}

/-- A bracketed text. -/
def parens (s : Text) : Text := '(' :: s ++ [')']

def braced (s : Text) : Text := '{' :: s ++ ['}']

def text {k : Form} : Written k → Text
  | letIn x e body => varWord ++ (' ' :: (x.text ++ (' ' :: '=' :: ' ' ::
      (e.surface.text ++ (',' :: ' ' :: body.text)))))
  | letRemote x e body => remoteWord ++ (' ' :: (x.text ++ (' ' :: '=' :: ' ' ::
      (e.surface.text ++ (',' :: ' ' :: body.text)))))
  | assign target e => target.surface.text ++ (' ' :: '=' :: ' ' :: e.surface.text)
  | ret e => returnWord ++ (' ' :: e.surface.text)
  | ifThen c t => ifWord ++ (' ' :: (parens c.surface.text ++ (' ' :: braced t.text)))
  | ifElse c t e => ifWord ++ (' ' :: (parens c.surface.text ++ (' ' :: (braced t.text ++
      (' ' :: (elseWord ++ (' ' :: braced e.text)))))))
  | whileLoop c body =>
    whileWord ++ (' ' :: (parens c.surface.text ++ (' ' :: braced body.text)))
  | braces s => braced s.text
  | operation h op args => (Surface.call h.surface op 1 (args.map Simple.surface)).text
  | sequence s next => s.text ++ (',' :: ' ' :: next.text)

theorem text_letIn (x : Identifier) (e : Simple) (body : Written k) :
    (letIn x e body).text = varWord ++ (' ' :: (x.text ++ (' ' :: '=' :: ' ' ::
      (e.surface.text ++ (',' :: ' ' :: body.text))))) := rfl

theorem text_letRemote (x : Identifier) (e : Simple) (body : Written k) :
    (letRemote x e body).text = remoteWord ++ (' ' :: (x.text ++ (' ' :: '=' :: ' ' ::
      (e.surface.text ++ (',' :: ' ' :: body.text))))) := rfl

theorem text_assign (target : Path) (e : Simple) :
    (assign target e).text = target.surface.text ++ (' ' :: '=' :: ' ' :: e.surface.text) := rfl

theorem text_ret (e : Simple) : (ret e).text = returnWord ++ (' ' :: e.surface.text) := rfl

theorem text_ifThen (c : Simple) (t : Written k) :
    (ifThen c t).text = ifWord ++ (' ' :: (parens c.surface.text ++ (' ' :: braced t.text))) := rfl

theorem text_ifElse {k' : Form} (c : Simple) (t : Written k) (e : Written k') :
    (ifElse c t e).text = ifWord ++ (' ' :: (parens c.surface.text ++ (' ' :: (braced t.text ++
      (' ' :: (elseWord ++ (' ' :: braced e.text))))))) := rfl

theorem text_whileLoop (c : Simple) (body : Written k) :
    (whileLoop c body).text =
      whileWord ++ (' ' :: (parens c.surface.text ++ (' ' :: braced body.text))) := rfl

theorem text_braces (s : Written k) : (braces s).text = braced s.text := rfl

theorem text_operation (h : Path) (op : Identifier) (args : List Simple) :
    (operation h op args).text =
      (Surface.call h.surface op 1 (args.map Simple.surface)).text := rfl

theorem text_sequence (s : Written .single) (next : Written k) :
    (sequence s next).text = s.text ++ (',' :: ' ' :: next.text) := rfl

def ast {k : Form} : Written k → Stmt Operator
  | letIn x e body => .letIn x.text e.surface.ast body.ast
  | letRemote x e body => .letRemote x.text e.surface.ast body.ast
  | assign target e => .assignment target.surface.ast e.surface.ast
  | ret e => .ret e.surface.ast
  | ifThen c t => .ifThen c.surface.ast t.ast .skip
  | ifElse c t e => .ifThen c.surface.ast t.ast e.ast
  | whileLoop c body => .whileLoop c.surface.ast body.ast
  | braces s => s.ast
  | operation h op args => .operation op.text h.surface.ast (args.map fun a => a.surface.ast)
  | sequence s next => .sequence s.ast next.ast

end Written

end Statements

section Texts

namespace Written

variable {k : Form} {p : Char → Prop}

theorem parens_outside {s : Text} (hs : Balanced s) (hp : p '(') : Outside bracket p (parens s) :=
  .group rfl rfl hp hs

theorem braced_outside {s : Text} (hs : Balanced s) (hp : p '{') : Outside bracket p (braced s) :=
  .group rfl rfl hp hs

theorem args_grammatical (args : List Simple) :
    ∀ a ∈ args.map Simple.surface, a.Grammatical := by
  intro a ha
  obtain ⟨e, -, rfl⟩ := List.mem_map.mp ha
  exact e.grammatical

theorem call_grammatical (h : Path) (op : Identifier) (args : List Simple) :
    (Surface.call h.surface op 1 (args.map Simple.surface)).Grammatical :=
  ⟨h.primary, h.grammatical, (Surface.grammaticalAll_iff _).mpr (args_grammatical args)⟩

theorem balanced (s : Written k) : Balanced s.text := by
  have simple : ∀ e : Simple, Balanced e.surface.text := fun e => balanced_text e.grammatical
  have name : ∀ x : Identifier, Balanced x.text :=
    fun x => word_outside x.word fun _ _ => trivial
  have closed : ∀ {c : Char} {s : Text}, bracket c = 0 → Balanced s → Balanced (c :: s) :=
    fun hc hs => .cons hc trivial hs
  have word : ∀ w : Text, (∀ c ∈ w, wordChar c = true) → Balanced w :=
    fun w hw => word_outside hw fun _ _ => trivial
  have group : ∀ e : Simple, Balanced (parens e.surface.text) :=
    fun e => parens_outside (simple e) trivial
  induction s with
  | letIn x e body ih =>
      exact (word _ (by decide)).append (closed rfl ((name x).append (closed rfl (closed rfl
        (closed rfl ((simple e).append (closed rfl (closed rfl ih))))))))
  | letRemote x e body ih =>
      exact (word _ (by decide)).append (closed rfl ((name x).append (closed rfl (closed rfl
        (closed rfl ((simple e).append (closed rfl (closed rfl ih))))))))
  | assign target e =>
      exact (balanced_text target.grammatical).append (closed rfl (closed rfl (closed rfl (simple e))))
  | ret e => exact (word _ (by decide)).append (closed rfl (simple e))
  | ifThen c t ih =>
      exact (word _ (by decide)).append (closed rfl ((group c).append
        (closed rfl (braced_outside ih trivial))))
  | ifElse c t e iht ihe =>
      exact (word _ (by decide)).append (closed rfl ((group c).append
        (closed rfl ((braced_outside iht trivial).append (closed rfl
          ((word _ (by decide)).append (closed rfl (braced_outside ihe trivial))))))))
  | whileLoop c body ih =>
      exact (word _ (by decide)).append (closed rfl ((group c).append
        (closed rfl (braced_outside ih trivial))))
  | braces s ih => exact braced_outside ih trivial
  | operation h op args =>
      exact balanced_text (call_grammatical h op args)
  | sequence s next ihs ihn => exact ihs.append (closed rfl (closed rfl ihn))

theorem fixed_outside {w : Text} (hw : ∀ c ∈ w, bracket c = 0) (hp : ∀ c ∈ w, p c) :
    Outside bracket p w :=
  .of_forall fun c hc => ⟨hw c hc, hp c hc⟩

theorem blank_outside {s : Text} (hp : p ' ') (hs : Outside bracket p s) :
    Outside bracket p (' ' :: s) :=
  .cons rfl hp hs

theorem ifThen_outside (c : Simple) (t : Written k) (hp : ∀ c ∈ ifWord ++ [' ', '(', '{'], p c) :
    Outside bracket p (ifThen c t).text := by
  have blank : p ' ' := hp _ (by decide)
  have word : Outside bracket p ifWord := fixed_outside (by decide) fun c hc => hp c (by simp [hc])
  have condition := parens_outside (balanced_text c.grammatical) (hp '(' (by decide))
  have thn := braced_outside t.balanced (hp '{' (by decide))
  exact word.append (blank_outside blank (condition.append (blank_outside blank thn)))

theorem ifElse_outside {k' : Form} (c : Simple) (t : Written k) (e : Written k')
    (hp : ∀ c ∈ ifWord ++ elseWord ++ [' ', '(', '{'], p c) :
    Outside bracket p (ifElse c t e).text := by
  have blank : p ' ' := hp _ (by decide)
  have word : Outside bracket p ifWord := fixed_outside (by decide) fun c hc => hp c (by simp [hc])
  have condition := parens_outside (balanced_text c.grammatical) (hp '(' (by decide))
  have thn := braced_outside t.balanced (hp '{' (by decide))
  have word' : Outside bracket p elseWord :=
    fixed_outside (by decide) fun c hc => hp c (by simp [hc])
  have els := braced_outside e.balanced (hp '{' (by decide))
  exact word.append (blank_outside blank (condition.append (blank_outside blank (thn.append
    (blank_outside blank (word'.append (blank_outside blank els)))))))

theorem whileLoop_outside (c : Simple) (body : Written k)
    (hp : ∀ c ∈ whileWord ++ [' ', '(', '{'], p c) :
    Outside bracket p (whileLoop c body).text := by
  have blank : p ' ' := hp _ (by decide)
  have word : Outside bracket p whileWord :=
    fixed_outside (by decide) fun c hc => hp c (by simp [hc])
  have condition := parens_outside (balanced_text c.grammatical) (hp '(' (by decide))
  have loop := braced_outside body.balanced (hp '{' (by decide))
  exact word.append (blank_outside blank (condition.append (blank_outside blank loop)))

/-- A single statement has no comma outside parentheses. -/
theorem noComma (s : Written .single) : Outside bracket (· ≠ ',') s.text := by
  have surface : ∀ {e : Surface}, e.Grammatical → Outside bracket (· ≠ ',') e.text :=
    fun h => (Surface.text_outside h).1.mono fun c hc => ne_comma_of_exprChar hc
  cases s with
  | assign target e =>
      have equals : Outside bracket (· ≠ ',') [' ', '=', ' '] :=
        fixed_outside (by decide) (by decide)
      exact (surface target.grammatical).append (equals.append (surface e.grammatical))
  | ret e =>
      have word : Outside bracket (· ≠ ',') returnWord := fixed_outside (by decide) (by decide)
      exact word.append (blank_outside (by decide) (surface e.grammatical))
  | ifThen c t => exact ifThen_outside c t (by decide)
  | ifElse c t e => exact ifElse_outside c t e (by decide)
  | whileLoop c body => exact whileLoop_outside c body (by decide)
  | braces s => exact braced_outside s.balanced (by decide)
  | operation h op args => exact surface (call_grammatical h op args)

end Written

end Texts

end MixT.Parsing
