/-
Sequences of GEMM commands, attached to any memory. The C tile is cleared by reset and by nothing else, so every command
adds its product to what the commands before it left.

The history of a run lists the commands accepted since reset, the latest first, each with what the port showed of it.
- `logged_step`, `logged_run`: the C tile holds the sum of all the products since reset, modulo `2 ^ 32`;
- `stored_product_iff`: a finished command stores the product of the tiles it read exactly when the products of the
  commands before it sum to zero modulo `2 ^ 32`; two commands that read the same tiles store the same tile exactly
  when those sums agree.
Witness `second_command_adds`: the second of two commands does not store the product of what it read.
-/
import AegisSoc.FixedFunc.GemmShared

namespace AegisSoc.GemmHistory

open Machine PortMemory GemmToMem GemmRun GemmShared Lanes
open PortClient hiding step

/-! ## The history of a run -/

/-- a command: its base, and what the port showed of it -/
structure Job where
  base : BitVec 64
  prog : Prog

/-- the commands since reset, the latest first -/
abbrev History := List Job

inductive HEv where
  | command (b : BitVec 64)
  | port (e : GemmRun.Ev)

def addEv : History → HEv → History
  | h, .command b => ⟨b, .empty⟩ :: h
  | [], .port _ => []
  | j :: h, .port e => ⟨j.base, j.prog.add e⟩ :: h

variable {L : Type*} [DecidableEq L] (T : ℕ) (idx : BitVec 64 → L)

/-- the accepted command of a cycle, and what the port shows -/
def hev (s : Sys L) (i : SysIn L) : List HEv :=
  (if cmdFire s.own i.ext then [.command i.ext.data] else []) ++ (GemmRun.ev T s i).map .port

def history (s : Sys L) (ins : List (SysIn L)) : History :=
  (collect (GemmRun.step T idx) (hev T) s ins).foldl addEv []

/-- the engine after reset, on a memory with any contents -/
def fresh (m : L → BitVec 512) : Sys L := ⟨GemmToMem.reset, m, none⟩

/-- element `n` of the sum of the products of the commands -/
def total (h : History) (n : ℕ) : ℕ := (h.map fun j => product T j.prog.reads n).sum

/-- the lines a command stores -/
def stored (g : Prog) : List (BitVec 512) := g.ops.filterMap Prod.snd

/-- the lines of a tile -/
def tileLines (c : ℕ → BitVec 32) : List (BitVec 512) := (List.range (linesC T)).map (cLine c)

/-- the lines of the product of the tiles a command read -/
def productLines (g : Prog) : List (BitVec 512) := tileLines T fun n => BitVec.ofNat 32 (product T g.reads n)

/-! ## The C tile holds the sum of all the products -/

/-- each command has stored the sum of the products up to its own -/
def Chain : History → Prop
  | [] => True
  | j :: h => stored j.prog = tileLines T (fun n => BitVec.ofNat 32 (total T (j :: h) n)) ∧ Chain h

/-- the registers, by the history of the run -/
def Logged (s : Sys L) : History → Prop
  | [] => s.own.state = .idle ∧ (∀ n < T * T, s.own.cTile n = 0) ∧ s.owed = none
  | j :: h => (∃ c0, (∀ n < T * T, c0 n = BitVec.ofNat 32 (total T h n)) ∧ Running T j.base c0 s j.prog) ∧ Chain T h

section

variable {T idx} {s : Sys L} {i : SysIn L} {h : History}

theorem ofNat_add_toNat (x p : ℕ) : BitVec.ofNat 32 ((BitVec.ofNat 32 x).toNat + p) = BitVec.ofNat 32 (p + x) := by
  apply BitVec.eq_of_toNat_eq
  simp only [BitVec.toNat_ofNat]
  omega

theorem foldl_port (es : List GemmRun.Ev) (j : Job) (h : History) :
    (es.map HEv.port).foldl addEv (j :: h) = ⟨j.base, es.foldl Prog.add j.prog⟩ :: h := by
  induction es generalizing j with
  | nil => rfl
  | cons e es ih =>
    rw [List.map_cons, List.foldl_cons, List.foldl_cons]
    exact ih ⟨j.base, j.prog.add e⟩

/-- an idle engine without a command stays as it is -/
theorem step_idle (T : ℕ) (idx : BitVec 64 → L) (hs : s.own.state = .idle) (hc : cmdFire s.own i.ext = false)
    (ho : s.owed = none) :
    (GemmRun.step T idx s i).own = s.own ∧ (GemmRun.step T idx s i).owed = none ∧ GemmRun.ev T s i = [] := by
  have hoff : onPort s.own = false := by simp [onPort, hs]
  refine ⟨?_, ?_, ?_⟩
  · rw [step_own]
    simp [GemmToMem.next, hs, hc]
  · simp [GemmRun.step, PortClient.step, accepts, takes, client, hoff, ho]
  · simp [GemmRun.ev, accepts, takes, client, hoff]

/-- a finished command stays finished -/
theorem running_idle (idx : BitVec 64 → L) {b : BitVec 64} {c0 : ℕ → BitVec 32} {g : Prog} (hR : Running T b c0 s g)
    (hs : s.own.state = .idle) (hc : cmdFire s.own i.ext = false) :
    Running T b c0 (GemmRun.step T idx s i) g ∧ GemmRun.ev T s i = [] := by
  have ho := hR.owed (by simp [onPort, hs])
  obtain ⟨hown, ho', he⟩ := step_idle T idx hs hc ho
  exact ⟨⟨by rw [hown]; exact hR.base, by rw [hown]; exact hR.phase, by rw [ho', ← ho]; exact hR.ops, fun _ => ho'⟩, he⟩

theorem filterMap_opAt (b : BitVec 64) (c : ℕ → BitVec 32) :
    ((List.range (2 * linesOperand T + linesC T)).map (opAt T b c)).filterMap Prod.snd = tileLines T c := by
  have hread : (List.range (2 * linesOperand T)).filterMap (fun n => (opAt T b c n).2) = [] := by
    refine List.filterMap_eq_nil_iff.2 fun n hn => ?_
    simp [opAt, List.mem_range.1 hn]
  have hwrite : ∀ l, (opAt T b c (2 * linesOperand T + l)).2 = some (cLine c l) := fun l => by simp [opAt]
  rw [List.range_add, List.map_append, List.filterMap_append, List.filterMap_map, List.map_map, List.filterMap_map]
  simp only [Function.comp_def, hread, hwrite, List.nil_append, tileLines]
  rw [← List.filterMap_eq_map]
  rfl

omit [DecidableEq L] in
/-- a command that has run to its end, and the C tile it leaves -/
theorem stored_done (hT : TileOk T) {j : Job} {c0 : ℕ → BitVec 32}
    (hc : ∀ n < T * T, c0 n = BitVec.ofNat 32 (total T h n)) (hR : Running T j.base c0 s j.prog)
    (hs : s.own.state = .idle) :
    stored j.prog = tileLines T (fun n => BitVec.ofNat 32 (total T (j :: h) n)) ∧
      ∀ n < T * T, s.own.cTile n = BitVec.ofNat 32 (total T (j :: h) n) := by
  obtain ⟨hops, -, -, htile⟩ := running_done hR (by simp [busy, hs])
  have hres : ∀ n < T * T, result T c0 j.prog.reads n = BitVec.ofNat 32 (total T (j :: h) n) := fun n hn => by
    rw [result, hc n hn, ofNat_add_toNat]
    rfl
  obtain ⟨hlines, hlc, -, -⟩ := hT.lines
  refine ⟨?_, fun n hn => (htile n hn).trans (hres n hn)⟩
  rw [stored, hops, filterMap_opAt]
  refine List.map_congr_left fun l hl => cLine_congr fun e he => hres _ ?_
  have := List.mem_range.1 hl
  omega

omit [DecidableEq L] in
theorem logged_fresh (m : L → BitVec 512) : Logged T (fresh m) [] := ⟨rfl, fun _ _ => rfl, rfl⟩

/-- **One cycle.** -/
theorem logged_step (hT : TileOk T) (hL : Logged T s h) :
    Logged T (GemmRun.step T idx s i) ((hev T s i).foldl addEv h) := by
  cases hc : cmdFire s.own i.ext with
  | true =>
    -- a new command starts on the C tile the history left
    have hs : s.own.state = .idle := by simpa [cmdFire, cmdReady] using ((Bool.and_eq_true _ _).mp hc).2
    have hoff : onPort s.own = false := by simp [onPort, hs]
    have hev' : (hev T s i).foldl addEv h = ⟨i.ext.data, .empty⟩ :: h := by
      simp [hev, hc, GemmRun.ev, accepts, takes, client, hoff, addEv]
    rw [hev']
    cases h with
    | nil =>
      obtain ⟨-, hzero, ho⟩ := hL
      exact ⟨⟨_, fun n hn => by rw [hzero n hn]; rfl, running_start idx hT hc ho⟩, trivial⟩
    | cons j h =>
      obtain ⟨⟨c0, hc0, hR⟩, hchain⟩ := hL
      obtain ⟨hst, htile⟩ := stored_done hT hc0 hR hs
      exact ⟨⟨_, htile, running_start idx hT hc (hR.owed hoff)⟩, hst, hchain⟩
  | false =>
    have hev' : hev T s i = (GemmRun.ev T s i).map .port := by simp [hev, hc]
    rw [hev']
    cases h with
    | nil =>
      obtain ⟨hs, hzero, ho⟩ := hL
      obtain ⟨hown, ho', he⟩ := step_idle T idx hs hc ho
      rw [he]
      exact ⟨by rw [hown]; exact hs, by rw [hown]; exact hzero, ho'⟩
    | cons j h =>
      obtain ⟨⟨c0, hc0, hR⟩, hchain⟩ := hL
      rw [foldl_port]
      refine ⟨⟨c0, hc0, ?_⟩, hchain⟩
      cases hb : busy s.own with
      | true => exact running_step idx i hT hR hb
      | false =>
        obtain ⟨hR', he⟩ := running_idle idx hR (by simpa [busy] using hb) hc
        rw [he]
        exact hR'

/-- **Every run.** -/
theorem logged_run (idx : BitVec 64 → L) (hT : TileOk T) (hL : Logged T s h) (ins : List (SysIn L)) :
    Logged T (run (GemmRun.step T idx) s ins) ((collect (GemmRun.step T idx) (hev T) s ins).foldl addEv h) :=
  run_ghost (Logged T) (fun _ _ _ hL _ => logged_step hT hL) hL (always_true _ _ _)

/-! ## What a finished command stores -/

theorem Chain.stored {later : History} {j : Job} (hch : Chain T (later ++ j :: h)) :
    GemmHistory.stored j.prog = tileLines T fun n => BitVec.ofNat 32 (total T (j :: h) n) := by
  induction later with
  | nil => exact hch.1
  | cons x later ih => exact ih hch.2

/-- a command followed by another, or by an idle engine, is finished -/
theorem stored_of_history (hT : TileOk T) (m : L → BitVec 512) (ins : List (SysIn L)) (later : History) {j : Job}
    (hh : history T idx (fresh m) ins = later ++ j :: h)
    (hdone : later ≠ [] ∨ busy (run (GemmRun.step T idx) (fresh m) ins).own = false) :
    stored j.prog = tileLines T fun n => BitVec.ofNat 32 (total T (j :: h) n) := by
  have hL : Logged T (run (GemmRun.step T idx) (fresh m) ins) (later ++ j :: h) :=
    hh ▸ logged_run idx hT (logged_fresh m) ins
  cases later with
  | nil =>
    obtain ⟨⟨c0, hc0, hR⟩, -⟩ := hL
    have hb := hdone.resolve_left fun hne => hne rfl
    exact (stored_done hT hc0 hR (by simpa [busy] using hb)).1
  | cons x later => exact hL.2.stored

theorem cLine_inj {c c' : ℕ → BitVec 32} {l e : ℕ} (hl : cLine c l = cLine c' l) (he : e < 16) :
    c (l * 16 + e) = c' (l * 16 + e) := by
  have hlane := congrArg (fun x => lane 32 x e) hl
  simp only [cLine] at hlane
  rwa [lane_ofLanes _ (by omega), lane_ofLanes _ (by omega)] at hlane

theorem tileLines_eq_iff (hT : TileOk T) {c c' : ℕ → BitVec 32} :
    tileLines T c = tileLines T c' ↔ ∀ n < T * T, c n = c' n := by
  obtain ⟨hlines, hlc, -, -⟩ := hT.lines
  rw [tileLines, tileLines, List.map_inj_left]
  constructor
  · intro hl n hn
    have hline := cLine_inj (e := n % 16) (hl (n / 16) (List.mem_range.2 (by omega))) (Nat.mod_lt _ (by omega))
    rwa [Nat.div_add_mod'] at hline
  · intro hc l hl
    have hl := List.mem_range.1 hl
    exact cLine_congr fun e he => hc _ (by omega)

theorem ofNat_eq_iff {x y : ℕ} : BitVec.ofNat 32 x = BitVec.ofNat 32 y ↔ x ≡ y [MOD 2 ^ 32] := by
  rw [← BitVec.toNat_inj, BitVec.toNat_ofNat, BitVec.toNat_ofNat]
  exact Iff.rfl

theorem total_cons (j : Job) (h : History) (n : ℕ) : total T (j :: h) n = product T j.prog.reads n + total T h n := rfl

theorem stored_eq_iff (hT : TileOk T) {j : Job}
    (hst : stored j.prog = tileLines T fun n => BitVec.ofNat 32 (total T (j :: h) n)) :
    stored j.prog = productLines T j.prog ↔ ∀ n < T * T, 2 ^ 32 ∣ total T h n := by
  rw [hst, productLines, tileLines_eq_iff hT]
  refine forall₂_congr fun n _ => ?_
  rw [ofNat_eq_iff, total_cons]
  exact (Nat.ModEq.rfl.add_iff_left (d := 0)).trans Nat.modEq_zero_iff_dvd

/-- **A command adds to what the earlier ones left.** For every run since reset, on any memory and with any commands, and
every finished command `j` of it, after the commands `h`: it has stored the product of the tiles it read if and only if
the products of the commands `h` sum to zero modulo `2 ^ 32` in every element. And two finished commands, of any two
runs, that read the same tiles have stored the same tile if and only if these sums agree modulo `2 ^ 32`. -/
theorem stored_product_iff (hT : TileOk T) (m : L → BitVec 512) (ins : List (SysIn L)) (later : History) (j : Job)
    (h : History) (hh : history T idx (fresh m) ins = later ++ j :: h)
    (hdone : later ≠ [] ∨ busy (run (GemmRun.step T idx) (fresh m) ins).own = false) :
    (stored j.prog = productLines T j.prog ↔ ∀ n < T * T, 2 ^ 32 ∣ total T h n) ∧
    ∀ (m' : L → BitVec 512) (ins' : List (SysIn L)) (later' : History) (j' : Job) (h' : History),
      history T idx (fresh m') ins' = later' ++ j' :: h' →
      (later' ≠ [] ∨ busy (run (GemmRun.step T idx) (fresh m') ins').own = false) →
      j'.prog.reads = j.prog.reads →
      (stored j.prog = stored j'.prog ↔ ∀ n < T * T, total T h n ≡ total T h' n [MOD 2 ^ 32]) := by
  have hst := stored_of_history hT m ins _ hh hdone
  refine ⟨stored_eq_iff hT hst, fun m' ins' later' j' h' hh' hdone' hreads => ?_⟩
  rw [hst, stored_of_history hT m' ins' _ hh' hdone', tileLines_eq_iff hT]
  refine forall₂_congr fun n _ => ?_
  rw [ofNat_eq_iff, total_cons, total_cons, hreads]
  exact Nat.ModEq.rfl.add_iff_left

end

/-! ## Two commands -/

/-- a cycle in which the memory accepts and answers at once -/
def eager : SysIn L := ⟨⟨false, 0⟩, true, true, 0, []⟩

/-- the same, with a command -/
def order (b : BitVec 64) : SysIn L := ⟨⟨true, b⟩, true, true, 0, []⟩

section

variable {T idx} {s : Sys L} {h : History} {b : BitVec 64} {c0 : ℕ → BitVec 32} {g : Prog} {m : L → BitVec 512}

theorem left_eager (idx : BitVec 64 → L) (hT : TileOk T) (hR : Running T b c0 s g) (hb : busy s.own = true) :
    left T (GemmRun.step T idx s eager).own ((GemmRun.ev T s eager).foldl Prog.add g) < left T s.own g := by
  have hleft := left_step idx eager hT hR hb
  by_cases hs : s.own.state = .calc
  · rw [if_pos hs] at hleft
    omega
  · have hon : onPort s.own = true := by
      simp only [busy, bne_iff_ne] at hb
      cases hst : s.own.state <;> simp_all [onPort]
    have hev : 0 < (GemmRun.ev T s eager).length := by
      cases ho : s.owed with
      | none => simp [GemmRun.ev, accepts, takes, portIn, client, hon, ho, eager]
      | some d => simp [GemmRun.ev, accepts, takes, portIn, client, hon, ho, eager]
    omega

/-- with an eager memory a command is finished after at most `left` cycles -/
theorem eager_run (hT : TileOk T) {k : ℕ} (hR : Running T b c0 s g) (hF : Fetched T idx b m s g)
    (hk : left T s.own g ≤ k) :
    ∃ g', (collect (GemmRun.step T idx) (hev T) s (List.replicate k eager)).foldl addEv (⟨b, g⟩ :: h) = ⟨b, g'⟩ :: h ∧
      busy (run (GemmRun.step T idx) s (List.replicate k eager)).own = false ∧
      Running T b c0 (run (GemmRun.step T idx) s (List.replicate k eager)) g' ∧
      Fetched T idx b m (run (GemmRun.step T idx) s (List.replicate k eager)) g' := by
  have hcmd : ∀ s : Sys L, cmdFire s.own (eager (L := L)).ext = false := fun _ => rfl
  have hhev : ∀ s : Sys L, hev T s eager = (GemmRun.ev T s eager).map .port := fun s => by simp [hev, hcmd]
  induction k generalizing s g with
  | zero =>
    refine ⟨g, rfl, ?_, hR, hF⟩
    cases hb : busy s.own with
    | true => exact absurd ((done_le hT hR).2 hb) (by omega)
    | false => exact hb
  | succ k ih =>
    rw [List.replicate_succ, collect_cons, run_cons, List.foldl_append, hhev, foldl_port]
    cases hb : busy s.own with
    | true =>
      have hlt := left_eager idx hT hR hb
      exact ih (running_step idx eager hT hR hb) (fetched_step hR hb hF fun _ _ w hw => absurd hw List.not_mem_nil)
        (Nat.le_of_lt_succ (hlt.trans_le hk))
    | false =>
      have hs : s.own.state = .idle := by simpa [busy] using hb
      obtain ⟨hR', he⟩ := running_idle idx hR hs (hcmd s)
      have hown := (step_idle T idx hs (hcmd s) (hR.owed (by simp [onPort, hs]))).1
      have hf : fetching (GemmRun.step T idx s eager).own = false := by rw [hown]; simp [fetching, hs]
      rw [he]
      refine ih hR' ⟨hF.reads, fun hf' => ?_, fun hf' => ?_⟩ ?_
      · rw [hf] at hf'; exact absurd hf' Bool.false_ne_true
      · rw [hf] at hf'; exact absurd hf' Bool.false_ne_true
      · have hzero : left T s.own g = 0 := by
          obtain ⟨hops, hacks, -, -⟩ := running_done hR hb
          simp [left, loops, hs, hops, hacks]
          omega
        rw [hown]
        show left T s.own g ≤ k
        omega

/-- a command accepted by an idle engine on an eager memory, from its first to its last cycle -/
theorem eager_command (hT : TileOk T) (hL : Logged T s h) (hs : busy s.own = false) {k : ℕ}
    (hk : 2 * (2 * linesOperand T + linesC T) + T * T * T ≤ k) :
    ∃ g', (collect (GemmRun.step T idx) (hev T) s (order b :: List.replicate k eager)).foldl addEv h = ⟨b, g'⟩ :: h ∧
      Logged T (run (GemmRun.step T idx) s (order b :: List.replicate k eager)) (⟨b, g'⟩ :: h) ∧
      busy (run (GemmRun.step T idx) s (order b :: List.replicate k eager)).own = false ∧
      ∀ n < 2 * linesOperand T, g'.reads[n]? = some (s.mem (idx (lineAt b n))) := by
  have hidle : s.own.state = .idle := by simpa [busy] using hs
  have hoff : onPort s.own = false := by simp [onPort, hidle]
  have hcmd : cmdFire s.own (order (L := L) b).ext = true := by simp [cmdFire, cmdReady, order, hidle]
  have ho : s.owed = none := by
    cases h with
    | nil => exact hL.2.2
    | cons j h => obtain ⟨⟨c0, -, hR⟩, -⟩ := hL; exact hR.owed hoff
  have hev' : (hev T s (order b)).foldl addEv h = ⟨b, .empty⟩ :: h := by
    simp only [hev, hcmd, ite_true, GemmRun.ev, accepts, takes, client, hoff, Bool.false_and, Bool.and_false,
      Bool.false_eq_true, ite_false, List.append_nil, List.map_nil, List.foldl_cons, List.foldl_nil, addEv]
    rfl
  have hR : Running T b s.own.cTile (GemmRun.step T idx s (order b)) .empty := running_start idx hT hcmd ho
  have ho' : (GemmRun.step T idx s (order b)).owed = none := by
    simp [GemmRun.step, PortClient.step, accepts, takes, client, hoff, ho]
  have hmem : (GemmRun.step T idx s (order b)).mem = s.mem := by
    simp [GemmRun.step, PortClient.step, accepts, client, hoff, order]
  have hF : Fetched T idx b s.mem (GemmRun.step T idx s (order b)) .empty := by
    rw [← hmem]
    exact fetched_start ho'
  obtain ⟨g', hfold, hb, hR', hF'⟩ := eager_run (h := h) (k := k) hT hR hF (le_trans (Nat.sub_le _ _) hk)
  have hlog := logged_run idx hT hL (order b :: List.replicate k eager)
  rw [collect_cons, List.foldl_append, hev', hfold] at hlog
  rw [collect_cons, List.foldl_append, hev', run_cons]
  refine ⟨g', hfold, hlog, hb, fun n hn => ?_⟩
  have hlen := (running_done hR' hb).2.2.1
  have hget := List.getElem?_eq_getElem (hlen.symm ▸ hn)
  rw [hget, hF'.reads n _ hget]

end

/-- every line of the memory is 1: the first element is 1, the others are 0 -/
def ones : BitVec 8 → BitVec 512 := fun _ => 1

/-- one command on an 8 × 8 tile at base 0: two cycles per line, one per multiply-accumulate -/
def once : List (SysIn (BitVec 8)) := order 0 :: List.replicate 528 eager

theorem once_command {s : Sys (BitVec 8)} {h : History} (hL : Logged 8 s h) (hs : busy s.own = false) :
    ∃ g, (collect (GemmRun.step 8 SplitPrioritizer.line) (hev 8) s once).foldl addEv h = ⟨0, g⟩ :: h ∧
      Logged 8 (run (GemmRun.step 8 SplitPrioritizer.line) s once) (⟨0, g⟩ :: h) ∧
      busy (run (GemmRun.step 8 SplitPrioritizer.line) s once).own = false ∧
      ∀ n < 4, g.reads[n]? = some (s.mem (SplitPrioritizer.line (lineAt 0 n))) :=
  eager_command (by decide) hL hs le_rfl

/-- the first command after reset stores the product of the tiles it read -/
theorem stored_product_iff_once :
    ∃ j, history 8 SplitPrioritizer.line (fresh ones) once = [j] ∧ stored j.prog = productLines 8 j.prog := by
  obtain ⟨g, hh, -, hb, -⟩ := once_command (logged_fresh ones) rfl
  exact ⟨⟨0, g⟩, hh, (stored_product_iff (by decide) ones once [] ⟨0, g⟩ [] hh (.inr hb)).1.2
    fun n _ => by simp [total]⟩

/-- **The second of two commands stores a wrong tile.** After the same command given twice, the engine is idle, and the
second command has not stored the product of the tiles it read. -/
theorem second_command_adds :
    ∃ j₂ j₁, history 8 SplitPrioritizer.line (fresh ones) (once ++ once) = [j₂, j₁] ∧
      busy (run (GemmRun.step 8 SplitPrioritizer.line) (fresh ones) (once ++ once)).own = false ∧
      stored j₂.prog ≠ productLines 8 j₂.prog := by
  have hT : TileOk 8 := by decide
  obtain ⟨g₁, hh₁, hL₁, hb₁, hreads⟩ := once_command (logged_fresh ones) rfl
  obtain ⟨g₂, hh₂, -, hb₂, -⟩ := once_command hL₁ hb₁
  have hh : history 8 SplitPrioritizer.line (fresh ones) (once ++ once) = [⟨0, g₂⟩, ⟨0, g₁⟩] := by
    rw [history, collect_append, List.foldl_append, hh₁, hh₂]
  have hb : busy (run (GemmRun.step 8 SplitPrioritizer.line) (fresh ones) (once ++ once)).own = false := by
    rw [run_append, hb₂]
  refine ⟨_, _, hh, hb, fun hst => ?_⟩
  -- both tiles of the first command have 1 in their first element, so its product has 1 there
  have helem : ∀ e < 128, elem g₁.reads e = lane 16 (1 : BitVec 512) (e % 32) := fun e he => by
    rw [elem, List.getD_eq_getElem?_getD, hreads (e / 32) (by omega)]
    rfl
  have hone : total 8 [⟨0, g₁⟩] 0 = 1 := by
    simp only [total, product, dot, List.map_cons, List.map_nil, List.sum_cons, List.sum_nil, Finset.sum_range_succ,
      Finset.sum_range_zero]
    simp (disch := decide) only [helem]
    decide +kernel
  have hdvd := (stored_eq_iff hT (stored_of_history hT ones _ [] hh (.inr hb))).1 hst 0 (by decide)
  rw [hone] at hdvd
  exact absurd hdvd (by decide)

end AegisSoc.GemmHistory
