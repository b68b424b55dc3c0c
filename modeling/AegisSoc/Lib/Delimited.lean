/-
Texts cut at a delimiter. A delimiter `d` is a word; a text without it is followed by pieces, each of which begins with `d`
and runs up to the next `d` (`join`).

- `BorderFree`: no proper suffix of `d` is one of its prefixes, so that two occurrences never overlap;
- `cut`: the text, cut before every occurrence of `d` but one at its very beginning.

Results, for a border-free `d`:
- `dropInfix_join`: the first occurrence of `d` ends the text before the pieces;
- `cut_join`: `cut` gives the pieces back;
- `exists_join`: every text has this form.
-/
import Mathlib.Data.List.Infix
import Mathlib.Tactic

namespace AegisSoc.Delimited

variable {α : Type*} {d h u t : List α} {bs : List (List α)}

/-- no proper suffix of `d` is a prefix of it -/
def BorderFree (d : List α) : Prop := ∀ k < d.length, 0 < k → ¬ d.drop k <+: d

/-- pieces `b`, each behind a delimiter -/
def join (d : List α) (bs : List (List α)) : List α := bs.flatMap (d ++ ·)

theorem join_cons (b : List α) : join d (b :: bs) = d ++ b ++ join d bs := rfl

section Cut

variable [DecidableEq α]

instance (d : List α) : Decidable (BorderFree d) :=
  inferInstanceAs (Decidable (∀ k < d.length, 0 < k → ¬ d.drop k <+: d))

/-- cut before each occurrence of `d`, the beginning apart -/
def cut (d : List α) : List α → List (List α)
  | [] => []
  | x :: xs =>
    if d <+: xs then [x] :: cut d xs
    else match cut d xs with
      | [] => [[x]]
      | p :: ps => (x :: p) :: ps

end Cut

/-! ## Occurrences -/

/-- an occurrence that begins before another one ends before it -/
theorem prefix_of_append (hd : BorderFree d) (hu : u ≠ []) (h : d <+: u ++ (d ++ t)) : d <+: u := by
  have hpos : 0 < u.length := List.length_pos_iff.2 hu
  rcases le_or_gt d.length u.length with hle | hlt
  · exact List.prefix_of_prefix_length_le h (List.prefix_append _ _) hle
  · obtain ⟨v, rfl⟩ : u <+: d := List.prefix_of_prefix_length_le (List.prefix_append _ _) h hlt.le
    have hv : v <+: u ++ v ++ t := (List.prefix_append_right_inj u).1 h
    have hborder : v <+: u ++ v := List.prefix_of_prefix_length_le hv (List.prefix_append _ _) (by simp)
    refine absurd ?_ (hd u.length hlt hpos)
    rwa [List.drop_left]

theorem prefix_of_append_join (hd : BorderFree d) (hu : u ≠ []) (h : d <+: u ++ join d bs) : d <+: u := by
  cases bs with
  | nil => rwa [join, List.flatMap_nil, List.append_nil] at h
  | cons b bs =>
    rw [join_cons, List.append_assoc] at h
    exact prefix_of_append hd hu h

/-- in a piece the delimiter occurs at the beginning only -/
theorem not_prefix_suffix {b : List α} (hd : BorderFree d) (hb : ¬ d <:+: b) (hu : u <:+ d ++ b) (hne : u ≠ d ++ b) :
    ¬ d <+: u := by
  intro hpre
  obtain ⟨w, hw⟩ := hu
  have hw0 : 0 < w.length := by
    refine List.length_pos_iff.2 ?_
    rintro rfl
    exact hne hw
  rcases List.append_eq_append_iff.1 hw with ⟨v, rfl, rfl⟩ | ⟨v, rfl, rfl⟩
  · -- it begins inside the delimiter
    have hv : v <+: w ++ v := List.prefix_of_prefix_length_le (List.prefix_append v b) hpre (by simp)
    rcases v.eq_nil_or_concat with rfl | ⟨v', y, rfl⟩
    · exact hb (hpre.isInfix.trans (by simp))
    · refine hd w.length (by simp) hw0 ?_
      rwa [List.drop_left]
  · exact hb (hpre.isInfix.trans (List.suffix_append v u).isInfix)

/-- a character that the word does not have parts its occurrences -/
theorem infix_append_cons {c : α} {x y : List α} (hc : c ∉ d) (h : d <:+: x ++ c :: y) : d <:+: x ∨ d <:+: y := by
  obtain ⟨s, t, h⟩ := h
  rcases List.append_eq_append_iff.1 h with ⟨v, rfl, -⟩ | ⟨v, hv, hy⟩
  · exact .inl ⟨s, v, rfl⟩
  cases v with
  | nil =>
    rw [List.append_nil] at hv
    exact .inl (hv ▸ (List.suffix_append s d).isInfix)
  | cons e v =>
    obtain ⟨rfl, rfl⟩ := List.cons.inj hy
    rcases List.append_eq_append_iff.1 hv with ⟨w, -, rfl⟩ | ⟨w, rfl, hw⟩
    · exact absurd (by simp) hc
    cases w with
    | nil =>
      rw [List.nil_append] at hw
      exact absurd (hw ▸ List.mem_cons_self) hc
    | cons e w =>
      obtain ⟨-, rfl⟩ := List.cons.inj hw
      exact .inr ⟨w, t, rfl⟩

/-- a word that ends in `c` ends before what has no `c` -/
theorem infix_of_append_right {c : α} {x y : List α} (hc : c ∉ y) (h : d ++ [c] <:+: x ++ y) : d ++ [c] <:+: x := by
  obtain ⟨s, t, h⟩ := h
  rcases List.append_eq_append_iff.1 h with ⟨v, rfl, -⟩ | ⟨v, hv, rfl⟩
  · exact ⟨s, v, rfl⟩
  rcases v.eq_nil_or_concat' with rfl | ⟨v, e, rfl⟩
  · rw [List.append_nil] at hv
    exact hv ▸ (List.suffix_append s _).isInfix
  · rw [← List.append_assoc, ← List.append_assoc] at hv
    obtain rfl : c = e := List.singleton_inj.1 (List.append_inj_right' hv rfl)
    exact absurd (by simp) hc

/-! ## The pieces come back -/

theorem cut_append [DecidableEq α] {s : List α} (hs : s ≠ [])
    (hin : ∀ u, u <:+ s → u ≠ [] → u ≠ s → ¬ d <+: u ++ join d bs) :
    cut d (s ++ join d bs) = s :: cut d (join d bs) := by
  induction s with
  | nil => exact absurd rfl hs
  | cons x s ih =>
    cases s with
    | nil =>
      cases bs with
      | nil => simp [join, cut]
      | cons b bs =>
        have hpre : d <+: join d (b :: bs) := by
          rw [join_cons, List.append_assoc]
          exact List.prefix_append _ _
        rw [List.singleton_append, cut, if_pos hpre]
    | cons y s =>
      have hnot : ¬ d <+: y :: s ++ join d bs := hin _ (List.suffix_cons _ _) (by simp) (by simp)
      have ih := ih (by simp) fun u hu hu0 hne => hin u (hu.trans (List.suffix_cons _ _)) hu0 fun heq => by
        have hlen := hu.length_le
        simp [heq] at hlen
      rw [List.cons_append, cut, if_neg hnot, ih]

/-- **Cutting a text of pieces gives the pieces.** -/
theorem cut_join [DecidableEq α] (hd : BorderFree d) (hd0 : d ≠ []) (hbs : ∀ b ∈ bs, ¬ d <:+: b) :
    cut d (join d bs) = bs.map (d ++ ·) := by
  induction bs with
  | nil => rfl
  | cons b bs ih =>
    obtain ⟨hb, hbs⟩ := List.forall_mem_cons.1 hbs
    rw [join_cons, cut_append (by simp [hd0]) ?_, ih hbs, List.map_cons]
    intro u hu hu0 hne hpre
    exact not_prefix_suffix hd hb hu hne (prefix_of_append_join hd hu0 hpre)

/-! ## The first occurrence -/

theorem dropInfix_join [DecidableEq α] {b : List α} (hd : BorderFree d) (hh : ¬ d <:+: h) :
    (h ++ join d (b :: bs)).dropInfix? d = some (h, b ++ join d bs) := by
  refine List.dropInfix?_eq_some_iff.2 ⟨⟨d, by simp [join_cons], beq_self_eq_true d⟩, fun p i s hp hi => ?_⟩
  obtain rfl := eq_of_beq hi
  by_contra hlt
  rw [List.append_assoc p] at hp
  obtain ⟨u, rfl⟩ : p <+: h :=
    List.prefix_of_prefix_length_le (hp ▸ List.prefix_append p _) (List.prefix_append h _) (by omega)
  have hu : u ≠ [] := by
    rintro rfl
    simp at hlt
  rw [List.append_assoc, List.append_cancel_left_eq] at hp
  have hpre : i <+: u := prefix_of_append_join hd hu (hp ▸ List.prefix_append i s)
  exact hh (hpre.isInfix.trans (List.suffix_append p u).isInfix)

theorem dropInfix_eq_none [DecidableEq α] (ht : ¬ d <:+: t) : t.dropInfix? d = none := by
  refine Option.eq_none_iff_forall_ne_some.2 fun ⟨p, s⟩ hps => ht ?_
  obtain ⟨⟨i, rfl, hi⟩, -⟩ := List.dropInfix?_eq_some_iff.1 hps
  exact ⟨p, s, by rw [eq_of_beq hi]⟩

theorem exists_shortest (hd0 : d ≠ []) (hin : d <:+: t) : ∃ p s, t = p ++ d ++ s ∧ ¬ d <:+: p := by
  obtain ⟨p, s, hp⟩ := hin
  have hpos := List.length_pos_iff.2 hd0
  induction hn : p.length using Nat.strong_induction_on generalizing p s with
  | _ n ih =>
    by_cases hagain : d <:+: p
    · obtain ⟨q, r, rfl⟩ := hagain
      refine ih q.length ?_ q (r ++ d ++ s) (by simp [← hp]) rfl
      simp only [List.length_append] at hn
      omega
    · exact ⟨p, s, hp.symm, hagain⟩

/-- **Every text is a text without the delimiter, followed by pieces.** -/
theorem exists_join (hd0 : d ≠ []) (t : List α) :
    ∃ h bs, t = h ++ join d bs ∧ ¬ d <:+: h ∧ ∀ b ∈ bs, ¬ d <:+: b := by
  induction hn : t.length using Nat.strong_induction_on generalizing t with
  | _ n ih =>
    by_cases hin : d <:+: t
    · obtain ⟨p, s, rfl, hp⟩ := exists_shortest hd0 hin
      have hpos := List.length_pos_iff.2 hd0
      obtain ⟨b, bs, rfl, hb, hbs⟩ := ih s.length (by simp at hn; omega) s rfl
      exact ⟨p, b :: bs, by simp [join_cons], hp, List.forall_mem_cons.2 ⟨hb, hbs⟩⟩
    · exact ⟨t, [], by simp [join], hin, by simp⟩

end AegisSoc.Delimited
