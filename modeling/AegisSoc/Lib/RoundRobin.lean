/-
Rotating-priority selection among `n` requesters. `last` is the requester served last: the first requester after it
wins, and only if there is none does the search wrap around to the requesters up to and including `last`.

- `select_valid`, `select_first`: the selected requester does request, and nobody who requests comes before it;
- `ahead`: how many requesters come before one in the search, and `ahead_served`: fewer after one of them has been served;
- `bypass`: in a machine that serves the selected requester and remembers it, while one requester waits every other one is
  served at most once; `bypass_total`: so at most `n - 1` requests are served in between.
-/
import AegisSoc.Lib.Machine

namespace AegisSoc.RoundRobin

open Machine

/-- the index of the first set bit, and the last index when no bit is set -/
def priorityEncoder : List Bool → ℕ
  | [] => 0
  | [_] => 0
  | b :: c :: bs => if b then 0 else priorityEncoder (c :: bs) + 1

/-- the requesters after `last` -/
def above (n last : ℕ) (v : ℕ → Bool) : List Bool := (List.range n).map fun i => decide (last < i) && v i

/-- the requesters up to `last` -/
def upto (n last : ℕ) (v : ℕ → Bool) : List Bool := (List.range n).map fun i => decide (i ≤ last) && v i

/-- the requester to serve next -/
def select (n last : ℕ) (v : ℕ → Bool) : ℕ :=
  if (above n last v).any id then priorityEncoder (above n last v) else priorityEncoder (upto n last v)

theorem priorityEncoder_lt {l : List Bool} (h : l ≠ []) : priorityEncoder l < l.length := by
  induction l with
  | nil => exact absurd rfl h
  | cons b bs ih =>
    cases bs with
    | nil => simp [priorityEncoder]
    | cons c bs =>
      have := ih (by simp)
      simp only [priorityEncoder]
      split_ifs
      · simp
      · simpa using this

theorem priorityEncoder_get {l : List Bool} (h : true ∈ l) : l[priorityEncoder l]? = some true := by
  induction l with
  | nil => simp at h
  | cons b bs ih =>
    cases bs with
    | nil => simp at h; simp [priorityEncoder, ← h]
    | cons c bs =>
      simp only [priorityEncoder]
      split_ifs with hb
      · simp [hb]
      · rw [List.getElem?_cons_succ]
        exact ih (by simpa [hb] using h)

/-- over the bits `f 0, …, f (n - 1)`, one of them set, the encoder finds a set bit -/
theorem priorityEncoder_map {n : ℕ} {f : ℕ → Bool} (h : ∃ i < n, f i = true) :
    f (priorityEncoder ((List.range n).map f)) = true := by
  have hmem : true ∈ (List.range n).map f := by simpa using h
  have hget := priorityEncoder_get hmem
  obtain ⟨hk, hf⟩ := List.getElem?_eq_some_iff.1 hget
  simpa using hf

theorem select_lt {n : ℕ} (hn : 0 < n) (last : ℕ) (v : ℕ → Bool) : select n last v < n := by
  have ha : above n last v ≠ [] := by simp [above]; omega
  have hu : upto n last v ≠ [] := by simp [upto]; omega
  unfold select
  split_ifs
  · simpa [above] using priorityEncoder_lt ha
  · simpa [upto] using priorityEncoder_lt hu

/-- the selected requester does request -/
theorem select_valid {n : ℕ} {v : ℕ → Bool} (h : ∃ i < n, v i = true) (last : ℕ) : v (select n last v) = true := by
  unfold select
  split_ifs with ha
  · have hex : ∃ i < n, (decide (last < i) && v i) = true := by simpa [above] using ha
    exact (Bool.and_eq_true _ _ ▸ priorityEncoder_map hex).2
  · obtain ⟨i, hi, hv⟩ := h
    have hle : i ≤ last := by
      by_contra hlt
      exact ha (List.any_eq_true.2 ⟨true, List.mem_map.2 ⟨i, List.mem_range.2 hi, by simp [hv]; omega⟩, rfl⟩)
    exact (Bool.and_eq_true _ _ ▸ priorityEncoder_map (f := fun i => decide (i ≤ last) && v i) ⟨i, hi, by simp [hv, hle]⟩).2

/-! ## The order of the search -/

/-- the place of requester `k` in the search that starts after `last` -/
def place (n last k : ℕ) : ℕ := if last < k then k else k + n

theorem priorityEncoder_le {l : List Bool} {k : ℕ} (h : l[k]? = some true) : priorityEncoder l ≤ k := by
  induction l generalizing k with
  | nil => simp at h
  | cons b bs ih =>
    cases bs with
    | nil => simp [priorityEncoder]
    | cons c bs =>
      simp only [priorityEncoder]
      split_ifs with hb
      · exact Nat.zero_le k
      · cases k with
        | zero => simp [hb] at h
        | succ k => exact Nat.succ_le_succ (ih (by simpa using h))

/-- **The selected requester is the first one of the search.** -/
theorem select_first {n k : ℕ} {v : ℕ → Bool} (hk : k < n) (hv : v k = true) (last : ℕ) :
    place n last (select n last v) ≤ place n last k := by
  have hlt : select n last v < n := select_lt (by omega) last v
  have hget : ∀ f : ℕ → Bool, f k = true → priorityEncoder ((List.range n).map f) ≤ k := fun f hf =>
    priorityEncoder_le (by simp [hk, hf])
  unfold select at hlt ⊢
  split_ifs at hlt ⊢ with ha
  · have hex : ∃ i < n, (decide (last < i) && v i) = true := by simpa [above] using ha
    have hafter : last < priorityEncoder (above n last v) :=
      of_decide_eq_true (Bool.and_eq_true _ _ ▸ priorityEncoder_map hex).1
    rw [place, if_pos hafter, place]
    split_ifs with hlast
    · exact hget _ (by simp [hlast, hv])
    · omega
  · have hle : ¬ last < k := fun hlast => ha (by simpa [above] using ⟨k, hk, hlast, hv⟩)
    have := hget (fun i => decide (i ≤ last) && v i) (by simp [hv]; omega)
    rw [place, place, if_neg hle]
    split_ifs <;> simp only [upto] at * <;> omega

/-- the requester served last comes last -/
theorem place_self {n p q : ℕ} (hp : p < n) (hpq : p ≠ q) : place n q p < place n q q := by
  simp only [place]
  split_ifs <;> omega

/-- serving a requester that comes before `p` does not change the order of `p` and those after it -/
theorem place_kept {n last k p q : ℕ} (hp : p < n) (hkp : place n last k < place n last p)
    (hpq : place n last p < place n last q) : place n k p < place n k q := by
  simp only [place] at *
  split_ifs at * <;> omega

/-- the requesters that come before `p` in the search -/
def ahead (n last p : ℕ) : ℕ := ((Finset.range n).filter fun k => place n last k < place n last p).card

theorem ahead_lt {n last p : ℕ} (hp : p < n) : ahead n last p < n := by
  have hsub : ((Finset.range n).filter fun k => place n last k < place n last p) ⊂ Finset.range n := by
    refine Finset.filter_ssubset.2 ⟨p, Finset.mem_range.2 hp, lt_irrefl _⟩
  exact (Finset.card_lt_card hsub).trans_eq (Finset.card_range n)

/-- serving one of them leaves fewer -/
theorem ahead_served {n last k p : ℕ} (hp : p < n) (hk : k < n) (h : place n last k < place n last p) :
    ahead n k p < ahead n last p := by
  refine Finset.card_lt_card (Finset.ssubset_iff_subset_ne.2 ⟨fun q hq => ?_, fun heq => ?_⟩)
  · obtain ⟨hq, hlt⟩ := Finset.mem_filter.1 hq
    refine Finset.mem_filter.2 ⟨hq, not_le.1 fun hle => ?_⟩
    rcases hle.lt_or_eq with hpq | heq
    · exact absurd hlt (not_lt.2 (place_kept hp h hpq).le)
    · have hpq : p = q := by
        have hqn := Finset.mem_range.1 hq
        simp only [place] at heq
        split_ifs at heq <;> omega
      exact absurd hlt (by rw [hpq]; exact lt_irrefl _)
  · have hmem : k ∈ (Finset.range n).filter fun q => place n last q < place n last p :=
      Finset.mem_filter.2 ⟨Finset.mem_range.2 hk, h⟩
    rw [← heq] at hmem
    have hne : p ≠ k := fun hpk => absurd h (by rw [hpk]; exact lt_irrefl _)
    exact absurd (Finset.mem_filter.1 hmem).2 (not_lt.2 (place_self hp hne).le)

/-! ## Bounded bypass -/

section Bypass

variable {S I : Type*} (n : ℕ) (step : S → I → S) (last : S → ℕ) (v : S → I → ℕ → Bool) (grants : S → I → List ℕ)

/-- a cycle serves nobody and remembers the last one, or serves the selected requester and remembers it -/
def Serves (s : S) (i : I) : Prop :=
  (grants s i = [] ∧ last (step s i) = last s) ∨
    (grants s i = [select n (last s) (v s i)] ∧ last (step s i) = select n (last s) (v s i))

/-- requester `p` requests and is not served -/
def Waits (p : ℕ) (s : S) (i : I) : Prop := v s i p = true ∧ p ∉ grants s i

variable {n step last v grants} {p q : ℕ} {s : S} {i : I} {ins : List I}

/-- what is served while `p` waits comes before `p` -/
theorem served_before (hp : p < n) (hw : Waits v grants p s i) (hg : grants s i = [select n (last s) (v s i)]) :
    place n (last s) (select n (last s) (v s i)) < place n (last s) p := by
  have hlt : select n (last s) (v s i) < n := select_lt (by omega) _ _
  have hne : p ≠ select n (last s) (v s i) := fun h => hw.2 (by rw [hg, ← h]; exact List.mem_singleton_self _)
  have hle := select_first hp hw.1 (last s)
  simp only [place] at *
  split_ifs at * <;> omega

/-- a requester after `p` in the search is not served while `p` waits -/
theorem not_served (hp : p < n) (hq : place n (last s) p < place n (last s) q)
    (h : Always step (fun s i => Serves n step last v grants s i ∧ Waits v grants p s i) s ins) :
    q ∉ collect step grants s ins := by
  induction ins generalizing s with
  | nil => exact List.not_mem_nil
  | cons i ins ih =>
    obtain ⟨⟨hserve, hwait⟩, hrest⟩ := h
    rw [collect_cons, List.mem_append, not_or]
    rcases hserve with ⟨hg, hlast⟩ | ⟨hg, hlast⟩
    · exact ⟨by simp [hg], ih (by rwa [hlast]) hrest⟩
    · have hbefore := served_before hp hwait hg
      refine ⟨?_, ih ?_ hrest⟩
      · rw [hg, List.mem_singleton]
        rintro rfl
        exact absurd (hbefore.trans hq) (lt_irrefl _)
      · rw [hlast]
        exact place_kept hp hbefore hq

/-- **Bounded bypass.** While `p` waits, every other requester is served at most once. -/
theorem bypass (hp : p < n) (hpq : q ≠ p)
    (h : Always step (fun s i => Serves n step last v grants s i ∧ Waits v grants p s i) s ins) :
    (collect step grants s ins).count q ≤ 1 := by
  induction ins generalizing s with
  | nil => exact Nat.zero_le 1
  | cons i ins ih =>
    obtain ⟨⟨hserve, hwait⟩, hrest⟩ := h
    rw [collect_cons, List.count_append]
    rcases hserve with ⟨hg, hlast⟩ | ⟨hg, hlast⟩
    · simpa [hg] using ih hrest
    · by_cases hq : select n (last s) (v s i) = q
      · have hnone : q ∉ collect step grants (step s i) ins :=
          not_served hp (by rw [hlast, hq]; exact place_self hp hpq.symm) hrest
        rw [List.count_eq_zero_of_not_mem hnone, hg, hq]
        simp
      · rw [hg, List.count_eq_zero_of_not_mem (by simpa using fun h => hq h.symm), Nat.zero_add]
        exact ih hrest

/-- so at most `n - 1` requests are served while `p` waits -/
theorem bypass_total (hp : p < n)
    (h : Always step (fun s i => Serves n step last v grants s i ∧ Waits v grants p s i) s ins) :
    (collect step grants s ins).length ≤ n - 1 := by
  have hmem : ∀ q ∈ collect step grants s ins, q < n ∧ q ≠ p := by
    refine collect_forall (always_imp (fun i _ s hs q hq => ⟨?_, fun hqp => hs.2.2 (hqp ▸ hq)⟩) h)
    rcases hs.1 with ⟨hg, -⟩ | ⟨hg, -⟩
    · simp [hg] at hq
    · rw [hg, List.mem_singleton] at hq
      exact hq ▸ select_lt (by omega) _ _
  have hnodup : (collect step grants s ins).Nodup := List.nodup_iff_count_le_one.2 fun q => by
    by_cases hq : q = p
    · exact (List.count_eq_zero_of_not_mem fun hmem' => (hmem q hmem').2 hq).trans_le (Nat.zero_le 1)
    · exact bypass hp hq h
  have hsub : (collect step grants s ins).toFinset ⊆ (Finset.range n).erase p := fun q hq => by
    obtain ⟨hlt, hne⟩ := hmem q (List.mem_toFinset.1 hq)
    exact Finset.mem_erase.2 ⟨hne, Finset.mem_range.2 hlt⟩
  calc (collect step grants s ins).length = (collect step grants s ins).toFinset.card :=
        (List.toFinset_card_of_nodup hnodup).symm
    _ ≤ ((Finset.range n).erase p).card := Finset.card_le_card hsub
    _ = n - 1 := by rw [Finset.card_erase_of_mem (Finset.mem_range.2 hp), Finset.card_range]

end Bypass

/-- a one-hot selection picks one of `n` items -/
theorem flatMap_onehot {E : Type*} {f : ℕ → List E} {n k : ℕ} (hk : k < n) (h : ∀ j < n, j ≠ k → f j = []) :
    (List.range n).flatMap f = f k := by
  induction n with
  | zero => omega
  | succ n ih =>
    rw [List.range_succ, List.flatMap_append, List.flatMap_singleton]
    rcases Nat.lt_succ_iff_lt_or_eq.1 hk with hlt | rfl
    · rw [ih hlt fun j hj => h j (by omega), h n (by omega) (by omega), List.append_nil]
    · rw [List.flatMap_eq_nil_iff.2 fun j hj => h j (by have := List.mem_range.1 hj; omega) (by
        have := List.mem_range.1 hj; omega), List.nil_append]

end AegisSoc.RoundRobin
