import Mathlib.Algebra.BigOperators.Group.List.Basic
import Mathlib.Data.List.Infix
import Mathlib.Algebra.Order.Ring.Int
import Mathlib.Tactic.FinCases
import Mathlib.Tactic.Push
import Mathlib.Tactic.Linarith

/-!
# Texts with brackets

A weight says of each character how many brackets it opens, so that a place
of a text is outside brackets when the weights before it sum to zero. A text
is closed with `p` outside when it closes every bracket it opens and its
characters outside brackets satisfy `p`. A substring that starts with a
character that is not outside brackets in a text does not occur there outside
brackets, which is all that splitting such texts needs.

-/

namespace MixT.Library.Nesting

variable {α : Type*} (weight : α → ℤ)

section Depth

/-- How many brackets a text leaves open. -/
def depth (s : List α) : ℤ := (s.map weight).sum

@[simp] theorem depth_nil : depth weight [] = 0 := rfl

@[simp] theorem depth_cons (x : α) (s : List α) :
    depth weight (x :: s) = weight x + depth weight s := by
  simp [depth]

@[simp] theorem depth_append (s t : List α) :
    depth weight (s ++ t) = depth weight s + depth weight t := by
  simp [depth]

/-- The text closes every bracket it opens, and `p` holds of its characters outside
brackets. -/
structure Outside (p : α → Prop) (s : List α) : Prop where
  closed : depth weight s = 0
  opened : ∀ pre x post, s = pre ++ x :: post → 0 ≤ depth weight pre
  outside : ∀ pre x post, s = pre ++ x :: post → depth weight pre = 0 → p x

/-- `sub` occurs in the text at a place outside brackets. -/
def Occurs (sub s : List α) : Prop :=
  ∃ pre post, s = pre ++ sub ++ post ∧ depth weight pre = 0

/-- The text is split at the last occurrence of `sub` outside brackets. -/
structure SplitsLast (sub s pre post : List α) : Prop where
  parts : s = pre ++ sub ++ post
  outside : depth weight pre = 0
  last : ∀ pre' post', s = pre' ++ sub ++ post' → depth weight pre' = 0 →
    pre'.length ≤ pre.length

end Depth

variable {weight}

namespace Outside

variable {p q : α → Prop} {s t : List α} {x o c : α}

theorem nil : Outside weight p [] :=
  ⟨rfl, by simp, by simp⟩

theorem mono (h : Outside weight p s) (weaker : ∀ x, p x → q x) : Outside weight q s :=
  ⟨h.closed, h.opened, fun pre x post hs hd => weaker x (h.outside pre x post hs hd)⟩

theorem append (hs : Outside weight p s) (ht : Outside weight p t) :
    Outside weight p (s ++ t) := by
  -- a place of `s ++ t` is a place of `s`, or one of `t` behind all of `s`
  have place : ∀ pre x post, s ++ t = pre ++ x :: post →
      (∃ post', s = pre ++ x :: post') ∨
        ∃ pre', t = pre' ++ x :: post ∧ depth weight pre = depth weight pre' := by
    intro pre x post h
    obtain ⟨mid, rfl, ht'⟩ | ⟨mid, rfl, hx⟩ := List.append_eq_append_iff.mp h
    · exact .inr ⟨mid, ht', by simp [hs.closed]⟩
    · cases mid with
      | nil => exact .inr ⟨[], by simpa using hx.symm, by simpa using hs.closed⟩
      | cons y mid =>
          obtain ⟨rfl, -⟩ := List.cons.inj hx
          exact .inl ⟨mid, rfl⟩
  refine ⟨by simp [hs.closed, ht.closed], fun pre x post h => ?_, fun pre x post h hd => ?_⟩
  · obtain ⟨post', hs'⟩ | ⟨pre', ht', hd⟩ := place pre x post h
    · exact hs.opened pre x post' hs'
    · exact hd ▸ ht.opened pre' x post ht'
  · obtain ⟨post', hs'⟩ | ⟨pre', ht', hd'⟩ := place pre x post h
    · exact hs.outside pre x post' hs' hd
    · exact ht.outside pre' x post ht' (hd' ▸ hd)

theorem single (hw : weight x = 0) (hx : p x) : Outside weight p [x] := by
  refine ⟨by simp [hw], fun pre y post h => ?_, fun pre y post h _ => ?_⟩ <;>
    obtain ⟨rfl, rfl, rfl⟩ | ⟨_, rfl, h⟩ := List.cons_eq_append_iff.mp h <;> simp_all

theorem cons (hw : weight x = 0) (hx : p x) (hs : Outside weight p s) :
    Outside weight p (x :: s) :=
  (single hw hx).append hs

theorem of_forall (hs : ∀ x ∈ s, weight x = 0 ∧ p x) : Outside weight p s := by
  induction s with
  | nil => exact nil
  | cons x s ih =>
      obtain ⟨hw, hx⟩ := hs x List.mem_cons_self
      exact cons hw hx (ih fun y hy => hs y (List.mem_cons_of_mem _ hy))

/-- Of a bracketed text only the opening bracket is outside. -/
theorem group (ho : weight o = 1) (hc : weight c = -1) (po : p o) (hs : Outside weight q s) :
    Outside weight p (o :: s ++ [c]) := by
  have place : ∀ pre x post, o :: s ++ [c] = pre ++ x :: post →
      (pre = [] ∧ x = o) ∨ 1 ≤ depth weight pre := by
    intro pre x post h
    cases pre with
    | nil => exact .inl ⟨rfl, (List.cons.inj h).1.symm⟩
    | cons y pre =>
        obtain ⟨rfl, hrest⟩ := List.cons.inj h
        refine .inr ?_
        obtain ⟨mid, rfl, hx⟩ | ⟨mid, rfl, hx⟩ := List.append_eq_append_iff.mp hrest
        · cases mid with
          | nil => simp [hs.closed, ho]
          | cons z mid =>
              have := congrArg List.length hx
              simp at this
        · cases mid with
          | nil => simp [ho, by simpa using hs.closed]
          | cons z mid =>
              obtain ⟨rfl, -⟩ := List.cons.inj hx
              simpa [ho] using hs.opened pre x mid rfl
  refine ⟨by simp [ho, hc, hs.closed], fun pre x post h => ?_, fun pre x post h hd => ?_⟩
  · obtain ⟨rfl, -⟩ | deep := place pre x post h
    · exact le_rfl
    · omega
  · obtain ⟨-, rfl⟩ | deep := place pre x post h
    · exact po
    · omega

theorem intercalate {ss : List (List α)} (hw : weight x = 0) (hx : p x)
    (hs : ∀ s ∈ ss, Outside weight p s) : Outside weight p (List.intercalate [x] ss) := by
  induction ss with
  | nil => exact nil
  | cons s ss ih =>
      have first := hs s List.mem_cons_self
      cases ss with
      | nil => simpa using first
      | cons t ss =>
          have rest := ih fun u hu => hs u (List.mem_cons_of_mem _ hu)
          simpa using first.append (cons hw hx rest)

end Outside

section Occurrences

variable {p q : α → Prop} {sub s t : List α} {x c : α}

theorem not_occurs_nil (h : sub ≠ []) : ¬ Occurs weight sub [] := by
  rintro ⟨pre, post, hs, -⟩
  have := congrArg List.length hs
  have := List.length_pos_iff.mpr h
  simp at *
  omega

theorem occurs_cons (hx : weight x = 0) :
    Occurs weight sub (x :: s) ↔ sub <+: x :: s ∨ Occurs weight sub s := by
  constructor
  · rintro ⟨pre, post, hs, hd⟩
    cases pre with
    | nil => exact .inl ⟨post, hs.symm⟩
    | cons y pre =>
        obtain ⟨rfl, hrest⟩ := List.cons.inj hs
        exact .inr ⟨pre, post, hrest, by simpa [hx] using hd⟩
  · rintro (⟨post, hs⟩ | ⟨pre, post, rfl, hd⟩)
    · exact ⟨[], post, hs.symm, rfl⟩
    · exact ⟨x :: pre, post, rfl, by simp [hx, hd]⟩

/-- An occurrence is not in a text that has the first character of `sub` nowhere outside
brackets. -/
theorem occurs_append_of_outside (hs : Outside weight p s) (hc : ¬ p c) :
    Occurs weight (c :: sub) (s ++ t) ↔ Occurs weight (c :: sub) t := by
  constructor
  · rintro ⟨pre, post, h, hd⟩
    rw [List.append_assoc] at h
    obtain ⟨mid, rfl, ht⟩ | ⟨mid, rfl, hmid⟩ := List.append_eq_append_iff.mp h
    · exact ⟨mid, post, by simp [ht], by simpa [hs.closed] using hd⟩
    · cases mid with
      | nil => exact ⟨[], post, by simpa using hmid.symm, rfl⟩
      | cons y mid =>
          obtain ⟨rfl, -⟩ := List.cons.inj hmid
          exact absurd (hs.outside pre c mid rfl hd) hc
  · rintro ⟨pre, post, rfl, hd⟩
    exact ⟨s ++ pre, post, by simp, by simp [hs.closed, hd]⟩

theorem not_occurs_of_outside (hs : Outside weight p s) (hc : ¬ p c) :
    ¬ Occurs weight (c :: sub) s := by
  have none : ¬ Occurs weight (c :: sub) [] := not_occurs_nil (by simp)
  rwa [← occurs_append_of_outside (t := []) hs hc, List.append_nil] at none

/-- In a word that ends where the text does or before a character that is none of `sub`,
the occurrences are the places of `sub` in the word. -/
theorem occurs_word (hs : ∀ x ∈ s, weight x = 0) (hsub : sub ≠ []) (all : ∀ x ∈ sub, q x)
    (ends : ∀ x ∈ t.head?, ¬ q x) :
    Occurs weight sub (s ++ t) ↔ sub <:+: s ∨ Occurs weight sub t := by
  have before : ∀ w : List α, sub <+: w ++ t ↔ sub <+: w := by
    intro w
    refine ⟨fun h => ?_, fun h => h.trans (List.prefix_append _ _)⟩
    obtain ⟨post, h⟩ := h
    obtain ⟨mid, rfl, -⟩ | ⟨mid, rfl, ht⟩ := List.append_eq_append_iff.mp h
    · exact ⟨mid, rfl⟩
    · cases mid with
      | nil => simp
      | cons y mid => exact absurd (all y (by simp)) (ends y (by simp [ht]))
  induction s with
  | nil => simp [hsub]
  | cons x s ih =>
      have hw := hs x List.mem_cons_self
      have ih := ih fun y hy => hs y (List.mem_cons_of_mem _ hy)
      rw [List.cons_append, occurs_cons hw, ← List.cons_append, before,
        List.infix_cons_iff, or_assoc]
      exact or_congr_right ih

end Occurrences

section Splitting

variable {sub s pre post : List α} {c : α}

/-- A split after which the text has no further occurrence is at the last one. -/
theorem splitsLast_of (hd : depth weight pre = 0) (hc : weight c = 0)
    (last : ¬ Occurs weight (c :: sub) (sub ++ post)) :
    SplitsLast weight (c :: sub) (pre ++ (c :: sub) ++ post) pre post := by
  refine ⟨rfl, hd, fun pre' post' h hd' => ?_⟩
  by_contra later
  push Not at later
  simp only [List.append_assoc] at h
  obtain ⟨mid, rfl, hmid⟩ | ⟨mid, rfl, -⟩ := List.append_eq_append_iff.mp h
  · cases mid with
    | nil => simp at later
    | cons y mid =>
        obtain ⟨rfl, hmid⟩ := List.cons.inj hmid
        refine last ⟨mid, post', by simpa using hmid, ?_⟩
        simpa [hd, hc] using hd'
  · simp at later

end Splitting

section Scans

variable (weight) [DecidableEq α]

/-- The places of `sub` outside brackets. -/
def places (sub s : List α) : List ℕ :=
  (List.range (s.length + 1)).filter fun i => depth weight (s.take i) = 0 ∧ sub <+: s.drop i

/-- Splits at the last occurrence. -/
def splitLast (sub s : List α) : List α × List α :=
  match (places weight sub s).max? with
  | some i => (s.take i, s.drop (i + sub.length))
  | none => (s, [])

/-- Splits at the first occurrence of one character. -/
def splitFirst (c : α) (s : List α) : List α × List α :=
  match (places weight [c] s).min? with
  | some i => (s.take i, s.drop (i + 1))
  | none => (s, [])

/-- The pieces between the occurrences of `c` outside brackets, where `d` brackets are
open in front of the text. -/
def pieces (c : α) : ℤ → List α → List (List α)
  | _, [] => [[]]
  | d, x :: s =>
    if d = 0 ∧ x = c then [] :: pieces c 0 s
    else match pieces c (d + weight x) s with
      | [] => [[x]]
      | p :: ps => (x :: p) :: ps

/-- The content of the first bracketed group, and the text behind it. -/
def firstGroup (s : List α) : List α × List α :=
  match s.dropWhile (weight · = 0) with
  | [] => ([], [])
  | _ :: rest =>
    match (List.range (rest.length + 1)).find? fun i => depth weight (rest.take i) < 0 with
    | some i => (rest.take (i - 1), rest.drop i)
    | none => (rest, [])

variable {weight} {sub s pre post inner : List α} {o c : α} {p q : α → Prop}

theorem mem_places {i : ℕ} :
    i ∈ places weight sub s ↔
      ∃ pre post, s = pre ++ sub ++ post ∧ depth weight pre = 0 ∧ pre.length = i := by
  simp only [places, List.mem_filter, List.mem_range, decide_eq_true_eq]
  constructor
  · rintro ⟨hi, hd, post, hpost⟩
    refine ⟨s.take i, post, ?_, hd, by simp; omega⟩
    rw [List.append_assoc, hpost, List.take_append_drop]
  · rintro ⟨pre, post, rfl, hd, rfl⟩
    refine ⟨by simp only [List.length_append]; omega, ?_, ?_⟩ <;> simp [hd]

theorem places_ne_nil_iff : places weight sub s ≠ [] ↔ Occurs weight sub s := by
  constructor
  · intro some
    obtain ⟨i, hi⟩ := List.exists_mem_of_ne_nil _ some
    obtain ⟨pre, post, hs, hd, -⟩ := mem_places.mp hi
    exact ⟨pre, post, hs, hd⟩
  · rintro ⟨pre, post, hs, hd⟩
    exact List.ne_nil_of_mem (mem_places.mpr ⟨pre, post, hs, hd, rfl⟩)

theorem splitLast_eq (h : SplitsLast weight sub s pre post) :
    splitLast weight sub s = (pre, post) := by
  have hmax : (places weight sub s).max? = some pre.length := by
    refine List.max?_eq_some_iff.mpr ⟨mem_places.mpr ⟨pre, post, h.parts, h.outside, rfl⟩, ?_⟩
    intro i hi
    obtain ⟨pre', post', hs, hd, rfl⟩ := mem_places.mp hi
    exact h.last pre' post' hs hd
  rw [splitLast, hmax]
  simp [h.parts]

theorem splitFirst_eq (h : Outside weight p pre) (hc : ¬ p c) :
    splitFirst weight c (pre ++ c :: post) = (pre, post) := by
  have hmin : (places weight [c] (pre ++ c :: post)).min? = some pre.length := by
    refine List.min?_eq_some_iff.mpr
      ⟨mem_places.mpr ⟨pre, post, by simp, h.closed, rfl⟩, fun i hi => ?_⟩
    obtain ⟨pre', post', hs, hd, rfl⟩ := mem_places.mp hi
    by_contra earlier
    push Not at earlier
    rw [List.append_assoc] at hs
    obtain ⟨mid, rfl, -⟩ | ⟨mid, rfl, hmid⟩ := List.append_eq_append_iff.mp hs
    · simp at earlier
    · cases mid with
      | nil => simp at earlier
      | cons y mid =>
          obtain ⟨rfl, -⟩ := List.cons.inj hmid
          exact hc (h.outside pre' c mid rfl hd)
  simp [splitFirst, hmin]

theorem pieces_append {t : List α} (h : Outside weight p s) (hc : ¬ p c) {first : List α}
    {more : List (List α)} (ht : pieces weight c 0 t = first :: more) :
    pieces weight c 0 (s ++ t) = (s ++ first) :: more := by
  -- behind the first part of `s`, whose depth is `d`
  have behind : ∀ done todo, s = done ++ todo →
      pieces weight c (depth weight done) (todo ++ t) = (todo ++ first) :: more := by
    intro done todo hs
    induction todo generalizing done with
    | nil =>
        obtain rfl : s = done := by simpa using hs
        simpa [h.closed] using ht
    | cons x todo ih =>
        have quiet : ¬ (depth weight done = 0 ∧ x = c) := by
          rintro ⟨hd, rfl⟩
          exact hc (h.outside done x todo hs hd)
        have rest := ih (done ++ [x]) (by simp [hs])
        simp only [depth_append, depth_cons, depth_nil, add_zero] at rest
        simp [pieces, quiet, rest]
  simpa using behind [] s rfl

theorem pieces_intercalate {ps : List (List α)} (hps : ps ≠ [])
    (h : ∀ s ∈ ps, Outside weight p s) (hc : ¬ p c) :
    pieces weight c 0 (List.intercalate [c] ps) = ps := by
  induction ps with
  | nil => exact absurd rfl hps
  | cons s ps ih =>
      have hs := h s List.mem_cons_self
      cases ps with
      | nil => simpa using pieces_append (t := []) hs hc rfl
      | cons s' ps =>
          have rest := ih (by simp) fun t ht => h t (List.mem_cons_of_mem _ ht)
          have front : pieces weight c 0 (c :: List.intercalate [c] (s' :: ps)) =
              [] :: s' :: ps := by
            simp [pieces, rest]
          simpa using pieces_append hs hc front

omit [DecidableEq α] in
theorem firstGroup_eq (hpre : ∀ x ∈ pre, weight x = 0) (ho : weight o ≠ 0)
    (hc : weight c = -1) (h : Outside weight q inner) :
    firstGroup weight (pre ++ o :: inner ++ c :: post) = (inner, post) := by
  have start : (pre ++ o :: inner ++ c :: post).dropWhile (weight · = 0) =
      o :: (inner ++ c :: post) := by
    rw [List.append_assoc, List.dropWhile_append_of_pos (by simpa using hpre)]
    simp [ho]
  have ends : (List.range ((inner ++ c :: post).length + 1)).find?
      (fun i => depth weight ((inner ++ c :: post).take i) < 0) = some (inner.length + 1) := by
    refine List.find?_range_eq_some.mpr ⟨?_, by simp, fun i hi => ?_⟩
    · have all : (inner ++ c :: post).take (inner.length + 1) = inner ++ [c] := by
        simp [List.take_append, List.take_of_length_le]
      simp [all, h.closed, hc]
    · have within : i ≤ inner.length := by omega
      simp only [List.take_append_of_le_length within, not_lt, Bool.not_eq_true',
        decide_eq_false_iff_not]
      obtain rfl | shorter := eq_or_lt_of_le within
      · simp [h.closed]
      · exact h.opened _ _ _ (by simp : inner = inner.take i ++ inner[i] :: inner.drop (i + 1))
  have behind : (inner ++ c :: post).drop (inner.length + 1) = post := by
    simp [List.drop_append]
  rw [firstGroup, start]
  simp only [ends, behind]
  simp

end Scans

end MixT.Library.Nesting
