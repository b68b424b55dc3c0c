/-
How a GEMM command gets on, on a memory port that serves it in time.

The port is described by two numbers that it may change in every cycle: the cycles before a request is accepted, and those
before an accepted request is answered, at most. If they go down while the engine waits for the one or the other (`Served`),
the cycles left for the command go down in every cycle short of the last (`closer`): a command is `allLines T` accesses, each
answered before the next, with `T * T * T` multiply-accumulates between the last read and the first write.
-/
import AegisSoc.FixedFunc.GemmRun

namespace AegisSoc.GemmPace

open GemmToMem GemmRun
open PortClient hiding step

variable {L : Type*} {T : ℕ} {b : BitVec 64} {c0 : ℕ → BitVec 32} {s : Sys L} {i : SysIn L} {g : Prog}
  {W S w w' n n' : ℕ}

/-! ## What is left to do -/

/-- the cycles before the access at hand is answered, at most: a request takes up to `W` cycles, of which `w` are left, and its
response less than `S`, of which `n` are left -/
def accessLeft (W S w n : ℕ) (s : Sys L) : ℕ :=
  if s.own.state = .calc then W + S
  else if s.owed.isSome then n + 1
  else w + S

/-- the cycles left for the command, at most -/
def commandLeft (T W S w n : ℕ) (s : Sys L) (g : Prog) : ℕ :=
  (W + S) * (allLines T - 1 - g.acks) + accessLeft W S w n s + (T * T * T - loops T s.own)

/-- the cycles of a whole command, at most -/
def maxCommand (T W S : ℕ) : ℕ := (W + S) * allLines T + T * T * T

theorem accessLeft_le (hw : w ≤ W) (hn : n + 1 < S) (s : Sys L) : accessLeft W S w n s ≤ W + S := by
  unfold accessLeft
  split_ifs <;> omega

theorem commandLeft_le (hT : TileOk T) (hw : w ≤ W) (hn : n + 1 < S) (s : Sys L) (g : Prog) :
    commandLeft T W S w n s g ≤ maxCommand T W S := by
  obtain ⟨-, -, hlo, -⟩ := hT.lines
  have hle := accessLeft_le hw hn s
  have hlines : (W + S) * (allLines T - 1 - g.acks + 1) ≤ (W + S) * allLines T :=
    Nat.mul_le_mul_left _ (by simp only [allLines]; omega)
  rw [Nat.mul_succ] at hlines
  unfold commandLeft maxCommand
  omega

/-- a command in progress has an access left to do -/
theorem acks_lt (hT : TileOk T) (hR : Running T b c0 s g) (hb : busy s.own = true) : g.acks < allLines T := by
  obtain ⟨-, hlc, hlo, -⟩ := hT.lines
  have hph := hR.phase
  unfold allLines
  cases hs : s.own.state with
  | idle => simp [busy, hs] at hb
  | fetchA | fetchB | «calc» | store => simp only [Phase, hs] at hph; omega

/-! ## One cycle -/

/-- what the port does in a cycle -/
structure Served (W S : ℕ) (s : Sys L) (i : SysIn L) (w w' n n' : ℕ) : Prop where
  accepts : onPort s.own = true → (portIn s i).reqReady = false → w' < w
  answers : s.owed.isSome = true → (portIn s i).respValid = false → n' < n
  wait_le : w' ≤ W
  lag_lt : n' + 1 < S

variable [DecidableEq L] {idx : BitVec 64 → L}

/-- a multiply-accumulate -/
theorem closer_calc (hT : TileOk T) (hR : Running T b c0 s g) (hcalc : s.own.state = .calc)
    (hs : Served W S s i w w' n n') :
    commandLeft T W S w' n' (step T idx s i) ((ev T s i).foldl Prog.add g) < commandLeft T W S w n s g := by
  have hoff : onPort s.own = false := by simp [onPort, hcalc]
  have he : ev T s i = [] := by simp [ev, accepts, takes, client, hoff]
  have hph := hR.phase
  simp only [Phase, hcalc] at hph
  obtain ⟨-, -, -, -, ⟨hi, hk, hj⟩, -⟩ := hph
  have hlt : loops T s.own < T * T * T := by
    simp only [loops, hcalc]
    exact loops_calc hi hk hj
  have hloops := loops_step idx i hT hR (by simp [busy, hcalc])
  have hle := accessLeft_le hs.wait_le hs.lag_lt (step T idx s i)
  rw [if_pos hcalc] at hloops
  rw [he, List.foldl_nil, commandLeft, commandLeft, hloops, accessLeft.eq_def W S w n s, if_pos hcalc]
  omega

/-- a cycle on the port in which nothing is answered: the request is accepted, or it or its response gets closer -/
theorem access_closer (idx : BitVec 64 → L) (hon : onPort s.own = true) (ht : takes (client T) s i = false)
    (hs : Served W S s i w w' n n') : accessLeft W S w' n' (step T idx s i) < accessLeft W S w n s := by
  have hcalc : s.own.state ≠ .calc := fun hc => by simp [onPort, hc] at hon
  have hstay : (step T idx s i).own.state = s.own.state := state_of_not_fire hon ht
  rw [accessLeft, accessLeft, hstay, if_neg hcalc, if_neg hcalc]
  rcases port_cases (client T) (MemReq.access idx) s i with ⟨-, -, ho, ho'⟩ | ⟨-, ht', -⟩ | ⟨ha, -, ho'⟩
  · have hlag := hs.lag_lt
    simp only [step, ho', ho, Option.isSome_some, Option.isSome_none, if_true, Bool.false_eq_true, if_false]
    omega
  · exact absurd (ht.symm.trans ht') Bool.false_ne_true
  · rw [step, ho']
    cases ho : s.owed.isSome with
    | true =>
      have hv : (portIn s i).respValid = false := by
        have ht : ((portIn s i).respValid && onPort s.own) = false := ht
        rwa [hon, Bool.and_true] at ht
      exact Nat.add_lt_add_right (hs.answers ho hv) 1
    | false =>
      have hr : (portIn s i).reqReady = false := by
        have ha : (onPort s.own && (portIn s i).reqReady) = false := ha
        rwa [hon, Bool.true_and] at ha
      exact Nat.add_lt_add_right (hs.accepts hon hr) S

/-- **Every cycle short of the last brings the end of the command closer.** -/
theorem closer (hT : TileOk T) (hR : Running T b c0 s g) (hb : busy s.own = true) (hn : busy (step T idx s i).own = true)
    (hs : Served W S s i w w' n n') :
    commandLeft T W S w' n' (step T idx s i) ((ev T s i).foldl Prog.add g) < commandLeft T W S w n s g := by
  by_cases hcalc : s.own.state = .calc
  · exact closer_calc hT hR hcalc hs
  have hon : onPort s.own = true := by
    cases hst : s.own.state <;> simp [onPort, busy, hst] at hb hcalc ⊢
  have hloops := loops_step idx i hT hR hb
  rw [if_neg hcalc, Nat.add_zero] at hloops
  cases ht : takes (client T) s i with
  | false =>
    have hcloser := access_closer idx hon ht hs
    have hacks : ((ev T s i).foldl Prog.add g).acks = g.acks := by
      simp only [ev, ht, Bool.false_eq_true, if_false, List.append_nil]
      split_ifs <;> rfl
    rw [commandLeft, commandLeft, hloops, hacks]
    omega
  | true =>
    -- an access less, whatever the next one takes
    have hacks : ((ev T s i).foldl Prog.add g).acks = g.acks + 1 := by
      rcases port_step T idx s i with ⟨-, hf, -⟩ | ⟨he, -⟩ | ⟨-, hf, -⟩
      · exact absurd (hf.symm.trans ht) Bool.false_ne_true
      · rw [he]
        split_ifs <;> rfl
      · exact absurd (hf.symm.trans ht) Bool.false_ne_true
    have hlt := acks_lt hT (running_step idx i hT hR hb) hn
    rw [hacks] at hlt
    have hone : allLines T - 1 - g.acks = allLines T - 1 - (g.acks + 1) + 1 := by omega
    have hle := accessLeft_le hs.wait_le hs.lag_lt (step T idx s i)
    have hpos : 0 < accessLeft W S w n s := by
      have := hs.lag_lt
      unfold accessLeft
      split_ifs <;> omega
    rw [commandLeft, commandLeft, hloops, hacks, hone, Nat.mul_succ]
    omega

end AegisSoc.GemmPace
