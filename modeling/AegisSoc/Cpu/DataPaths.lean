/-
The two data-memory paths of the core: the internal 256-word memory, and the word port through `CoreMemToHBM` to a line
memory of its own.

The paths treat stores differently. The internal path writes the whole source register over the word that holds the
address, for every size. The external path merges the register, moved to the byte offset, into the line. For a word
store this is the same; for a byte or a half it is the same only for some contents (`StoreAgrees`).
- `store_same_iff`: a store leaves the two memories the same if and only if it agrees;
- `load_same`: aligned loads return the same from the same memories;
- `internal_paced`: the internal path completes an instruction in two cycles;
- `paths_agree`: in every run whose executed accesses are aligned, in range and, for stores, agree, the two cores retire
  the same states, and halt with the same memory. Each of them gets on by itself.
Witness `byte_store_differs`: `sb` of 1 to address 1 puts the byte at address 0 in the internal memory.
-/
import AegisSoc.Cpu.CpuPace
import AegisSoc.Memory.HBM3Stack

namespace AegisSoc.DataPaths

open Machine PortMemory RiscVICore StallInsensitive CoreMemToHBM CpuLane Lanes
open PortClient hiding step
open HBM3Stack (lineAddr)

/-! ## The 1024 bytes in both memories -/

/-- word `w` of a line memory -/
def wordOf (mem : BitVec 58 → BitVec 512) (w : BitVec 8) : BitVec 32 :=
  lane 32 (mem (BitVec.ofNat 58 (w.toNat / 16))) (w.toNat % 16)

/-- the first 256 words of the line memory are those of the internal memory -/
def Same (dmem : BitVec 8 → BitVec 32) (mem : BitVec 58 → BitVec 512) : Prop := ∀ w, dmem w = wordOf mem w

/-- the word that holds an address -/
def wordIdx (a : BitVec 64) : BitVec 8 := a.extractLsb' 2 8

/-- the access is naturally aligned and inside the first 1024 bytes -/
def InRange (q : WordMemReq) : Prop := q.addr.toNat % bytes q.size = 0 ∧ q.addr.toNat < 1024

instance (q : WordMemReq) : Decidable (InRange q) := inferInstanceAs (Decidable (_ ∧ _))

/-- the merge of the store `q` gives the word the internal path writes, and nothing spills into the next word -/
structure StoreAgrees (dmem : BitVec 8 → BitVec 32) (q : WordMemReq) : Prop where
  word : ∀ x < 32, q.data.getLsbD x =
    if x < 8 * (q.addr.toNat % 4) then (dmem (wordIdx q.addr)).getLsbD x
    else if x < 8 * (q.addr.toNat % 4) + 8 * bytes q.size then q.data.getLsbD (x - 8 * (q.addr.toNat % 4))
    else ((dmem (wordIdx q.addr)).getLsbD x || q.data.getLsbD (x - 8 * (q.addr.toNat % 4)))
  spill : (wordIdx q.addr).toNat % 16 ≠ 15 → ∀ x < 8 * (q.addr.toNat % 4),
    q.data.getLsbD (32 - 8 * (q.addr.toNat % 4) + x) = true → (dmem (wordIdx q.addr + 1)).getLsbD x = true

instance (dmem : BitVec 8 → BitVec 32) (q : WordMemReq) : Decidable (StoreAgrees dmem q) :=
  decidable_of_iff (_ ∧ _) ⟨fun h => ⟨h.1, h.2⟩, fun h => ⟨h.word, h.spill⟩⟩

section Bits

variable {q : WordMemReq} {dmem : BitVec 8 → BitVec 32} {mem : BitVec 58 → BitVec 512}

theorem bytes_cases (size : BitVec 2) : bytes size = 1 ∨ bytes size = 2 ∨ bytes size = 4 := by
  unfold bytes
  split_ifs <;> simp

theorem wordIdx_toNat (h : q.addr.toNat < 1024) : (wordIdx q.addr).toNat = q.addr.toNat / 4 := by
  simp only [wordIdx, BitVec.extractLsb'_toNat, Nat.shiftRight_eq_div_pow]
  omega

theorem line_eq (h : q.addr.toNat < 1024) :
    lineAddr (lineBase q.addr) = BitVec.ofNat 58 ((wordIdx q.addr).toNat / 16) := by
  have hline : lineAddr (lineBase q.addr) = q.addr.extractLsb' 6 58 := by
    apply BitVec.eq_of_getLsbD_eq
    intro b hb
    simp only [lineAddr, lineBase, BitVec.getLsbD_extractLsb', BitVec.getLsbD_append, hb, decide_true, Bool.true_and,
      show ¬ 6 + b < 6 by omega, if_false, Nat.add_sub_cancel_left]
  rw [hline, wordIdx_toNat h]
  apply BitVec.eq_of_toNat_eq
  simp only [BitVec.extractLsb'_toNat, BitVec.toNat_ofNat, Nat.shiftRight_eq_div_pow]
  omega

/-- an aligned access stays inside its word -/
theorem field_lt (h : InRange q) : q.addr.toNat % 4 + bytes q.size ≤ 4 := by
  have hal := h.1
  rcases bytes_cases q.size with hb | hb | hb <;> rw [hb] at hal ⊢ <;> omega

theorem offset_eq (h : q.addr.toNat < 1024) :
    offset q.addr = 4 * ((wordIdx q.addr).toNat % 16) + q.addr.toNat % 4 := by
  rw [wordIdx_toNat h, offset]
  omega

theorem wordOf_getLsbD (w : BitVec 8) {x : ℕ} (hx : x < 32) :
    (wordOf mem w).getLsbD x = (mem (BitVec.ofNat 58 (w.toNat / 16))).getLsbD (32 * (w.toNat % 16) + x) := by
  rw [wordOf, getLsbD_lane]
  simp [hx]

/-- the words of a line after the write-back of `q` -/
theorem storeLine_word (h : InRange q) (l : BitVec 512) {k x : ℕ} (hk : k < 16) (hx : x < 32) :
    (storeLine q l).getLsbD (32 * k + x) =
      if k = (wordIdx q.addr).toNat % 16 then
        if x < 8 * (q.addr.toNat % 4) then l.getLsbD (32 * k + x)
        else if x < 8 * (q.addr.toNat % 4) + 8 * bytes q.size then q.data.getLsbD (x - 8 * (q.addr.toNat % 4))
        else (l.getLsbD (32 * k + x) || q.data.getLsbD (x - 8 * (q.addr.toNat % 4)))
      else if k = (wordIdx q.addr).toNat % 16 + 1 ∧ x < 8 * (q.addr.toNat % 4) then
        (l.getLsbD (32 * k + x) || q.data.getLsbD (32 - 8 * (q.addr.toNat % 4) + x))
      else l.getLsbD (32 * k + x) := by
  have hoff := offset_eq h.2
  have hfield := field_lt h
  generalize (wordIdx q.addr).toNat % 16 = W at hoff ⊢
  rw [storeLine_getLsbD q l (by omega), hoff]
  by_cases hkW : k = W
  · subst hkW
    rw [if_pos rfl]
    by_cases h1 : x < 8 * (q.addr.toNat % 4)
    · rw [if_pos (by omega), if_pos h1]
    · rw [if_neg (by omega), if_neg h1,
        show 32 * k + x - 8 * (4 * k + q.addr.toNat % 4) = x - 8 * (q.addr.toNat % 4) by omega]
      by_cases h2 : x < 8 * (q.addr.toNat % 4) + 8 * bytes q.size
      · rw [if_pos (by omega), if_pos h2]
      · rw [if_neg (by omega), if_neg h2]
  · rw [if_neg hkW]
    by_cases hlt : k < W
    · rw [if_pos (by omega), if_neg (by omega)]
    · rw [if_neg (by omega), if_neg (by omega)]
      by_cases hnext : k = W + 1 ∧ x < 8 * (q.addr.toNat % 4)
      · rw [if_pos hnext]
        congr 2
        omega
      · rw [if_neg hnext, BitVec.getLsbD_of_ge q.data _ (by omega), Bool.or_false]

/-- the words of the line memory after the store `q`, over memories that were the same -/
theorem stored_word (h : InRange q) (hS : Same dmem mem) (w : BitVec 8) {x : ℕ} (hx : x < 32) :
    (wordOf (Function.update mem (lineAddr (lineBase q.addr)) (storeLine q (mem (lineAddr (lineBase q.addr))))) w).getLsbD x =
      if w = wordIdx q.addr then
        if x < 8 * (q.addr.toNat % 4) then (dmem w).getLsbD x
        else if x < 8 * (q.addr.toNat % 4) + 8 * bytes q.size then q.data.getLsbD (x - 8 * (q.addr.toNat % 4))
        else ((dmem w).getLsbD x || q.data.getLsbD (x - 8 * (q.addr.toNat % 4)))
      else if (w = wordIdx q.addr + 1 ∧ (wordIdx q.addr).toNat % 16 ≠ 15) ∧ x < 8 * (q.addr.toNat % 4) then
        ((dmem w).getLsbD x || q.data.getLsbD (32 - 8 * (q.addr.toNat % 4) + x))
      else (dmem w).getLsbD x := by
  have hw := w.isLt
  have hW := (wordIdx q.addr).isLt
  have hbit : (dmem w).getLsbD x = (mem (BitVec.ofNat 58 (w.toNat / 16))).getLsbD (32 * (w.toNat % 16) + x) := by
    rw [hS w, wordOf_getLsbD w hx]
  have heq : w = wordIdx q.addr ↔ w.toNat = (wordIdx q.addr).toNat := BitVec.toNat_inj.symm
  have hnext : w = wordIdx q.addr + 1 ∧ (wordIdx q.addr).toNat % 16 ≠ 15 ↔
      w.toNat = (wordIdx q.addr).toNat + 1 ∧ (wordIdx q.addr).toNat % 16 ≠ 15 := by
    rw [← BitVec.toNat_inj, BitVec.toNat_add, show (1 : BitVec 8).toNat = 1 from rfl]
    omega
  rw [wordOf_getLsbD w hx, line_eq h.2, hbit]
  by_cases hline : w.toNat / 16 = (wordIdx q.addr).toNat / 16
  · rw [hline, Function.update_self, storeLine_word h _ (by omega) hx]
    have hkW : w.toNat % 16 = (wordIdx q.addr).toNat % 16 ↔ w = wordIdx q.addr := by rw [heq]; omega
    have hkN : w.toNat % 16 = (wordIdx q.addr).toNat % 16 + 1 ↔
        w = wordIdx q.addr + 1 ∧ (wordIdx q.addr).toNat % 16 ≠ 15 := by rw [hnext]; omega
    simp only [hkW, hkN]
  · have hne : BitVec.ofNat 58 (w.toNat / 16) ≠ BitVec.ofNat 58 ((wordIdx q.addr).toNat / 16) := fun he => hline (by
      have := congrArg BitVec.toNat he
      simp only [BitVec.toNat_ofNat] at this
      omega)
    rw [Function.update_of_ne hne, if_neg (by rw [heq]; omega), if_neg (by rw [hnext]; omega)]

/-- **A store leaves the two memories the same if and only if it agrees.** -/
theorem store_same_iff (h : InRange q) (hS : Same dmem mem) :
    Same (Function.update dmem (wordIdx q.addr) q.data)
      (Function.update mem (lineAddr (lineBase q.addr)) (storeLine q (mem (lineAddr (lineBase q.addr))))) ↔
      StoreAgrees dmem q := by
  have hsucc : ∀ w : BitVec 8, w + 1 ≠ w := by decide
  constructor
  · intro hS'
    refine ⟨fun x hx => ?_, fun hlast x hx hd => ?_⟩
    · have hbit := congrArg (fun v => v.getLsbD x) (hS' (wordIdx q.addr))
      simp only [Function.update_self, stored_word h hS _ hx, if_true] at hbit
      exact hbit
    · have hx' : x < 32 := by omega
      have hbit := congrArg (fun v => v.getLsbD x) (hS' (wordIdx q.addr + 1))
      simp only [Function.update_of_ne (hsucc _), stored_word h hS _ hx', if_neg (hsucc _)] at hbit
      rw [if_pos ⟨⟨trivial, hlast⟩, hx⟩, hd, Bool.or_true] at hbit
      exact hbit
  · intro ha w
    apply BitVec.eq_of_getLsbD_eq
    intro x hx
    rw [stored_word h hS w hx]
    by_cases hw : w = wordIdx q.addr
    · subst hw
      rw [Function.update_self, if_pos rfl]
      exact ha.word x hx
    · rw [Function.update_of_ne hw, if_neg hw]
      split_ifs with hn
      · obtain ⟨⟨rfl, hlast⟩, hs⟩ := hn
        cases hd : q.data.getLsbD (32 - 8 * (q.addr.toNat % 4) + x)
        · simp
        · rw [ha.spill hlast x hs hd, Bool.true_or]
      · rfl

/-- the extension looks at the loaded field only -/
theorem extend_congr {byte half signed : Bool} {u v : BitVec 32}
    (h : ∀ x < if byte then 8 else if half then 16 else 32, u.getLsbD x = v.getLsbD x) :
    extend byte half signed u = extend byte half signed v := by
  cases byte with
  | true =>
    have hlow : u.extractLsb' 0 8 = v.extractLsb' 0 8 := by
      apply BitVec.eq_of_getLsbD_eq
      intro x hx
      simp only [BitVec.getLsbD_extractLsb', hx, decide_true, Bool.true_and, Nat.zero_add]
      exact h x hx
    simp only [extend, ite_true, hlow, h 7 (show 7 < 8 by decide)]
  | false =>
    cases half with
    | true =>
      have hlow : u.extractLsb' 0 16 = v.extractLsb' 0 16 := by
        apply BitVec.eq_of_getLsbD_eq
        intro x hx
        simp only [BitVec.getLsbD_extractLsb', hx, decide_true, Bool.true_and, Nat.zero_add]
        exact h x hx
      simp only [extend, Bool.false_eq_true, ite_false, ite_true, hlow, h 15 (by decide)]
    | false =>
      have hall : u = v := BitVec.eq_of_getLsbD_eq fun x hx => h x hx
      rw [hall]

/-- **Aligned loads return the same from the same memories.** -/
theorem load_same (h : InRange q) (hS : Same dmem mem) {byte half signed : Bool}
    (hsize : bytes q.size = if byte then 1 else if half then 2 else 4) :
    extend byte half signed (loadField q (mem (lineAddr (lineBase q.addr)))) =
      extend byte half signed (dmem (wordIdx q.addr) >>> (8 * (q.addr.toNat % 4))) := by
  have hfield := field_lt h
  refine extend_congr fun x hx => ?_
  have hx' : x < 8 * bytes q.size := by
    rw [hsize]
    cases byte <;> cases half <;> simpa using hx
  rw [loadField_getLsbD _ hx', offset_eq h.2, BitVec.getLsbD_ushiftRight, hS, wordOf_getLsbD _ (by omega), line_eq h.2]
  congr 1
  omega

end Bits

/-! ## The internal path, one instruction per step -/

structure Words where
  arch : Arch
  dmem : BitVec 8 → BitVec 32

section Internal

variable (img : BitVec 8 → BitVec 32)

namespace Words

variable (m : Words)

def inst : BitVec 32 := fetch img m.arch.pc

def req : WordMemReq := request (m.inst img) m.arch

/-- what a load reads: the word of its address, moved to the byte offset -/
def data : BitVec 32 := m.dmem (wordIdx (m.req img).addr) >>> (8 * ((m.req img).addr.toNat % 4))

def next : Words where
  arch := exec img m.arch (m.data img)
  dmem := if isStore (m.inst img) then Function.update m.dmem (wordIdx (m.req img).addr) (m.req img).data else m.dmem

/-- the access of the instruction at the pc, if it has one, is aligned and in range, and agrees if it is a store -/
def Good : Prop :=
  isMem (m.inst img) = true → InRange (m.req img) ∧ (isStore (m.inst img) = true → StoreAgrees m.dmem (m.req img))

end Words

/-- the machine after `n` instructions -/
def words (n : ℕ) : Words := (Words.next img)^[n] ⟨boot, fun _ => 0⟩

theorem words_succ (n : ℕ) : words img (n + 1) = (words img n).next img := Function.iterate_succ_apply' _ _ _

/-- the core has started the load at `m` and writes it back in the next cycle -/
structure Loading (r : RiscVICore.Reg) (m : Words) : Prop where
  running : r.halted = false
  isLoad : isLoad (m.inst img) = true
  pc : r.pc = nextPc (m.inst img) m.arch
  rf : r.rf = m.arch.rf
  ldAddr : r.ldAddr = addr (m.inst img) m.arch
  ldRd : r.ldRd = rd (m.inst img)
  ldByte : r.ldByte = byteOp (m.inst img)
  ldHalf : r.ldHalf = halfOp (m.inst img)
  ldSigned : r.ldSigned = signedOp (m.inst img)

/-- the core with the internal memory stands at `m` -/
structure Internal (r : RiscVICore.Reg) (m : Words) : Prop where
  running : r.running = true
  image : r.halted = false → r.imem = img
  noMem : r.memWait = false
  dmem : r.dmem = m.dmem
  boundary : r.loadWait = false → arch r = m.arch
  loading : r.loadWait = true → Loading img r m
  sentinel : r.halted = true → isHalt (m.inst img) = true

variable {img} {r : RiscVICore.Reg} {i : RiscVICore.In} {m : Words}

theorem Internal.inst (h : Internal img r m) (hh : r.halted = false) (hl : r.loadWait = false) :
    RiscVICore.inst r = m.inst img := by
  rw [RiscVICore.inst, h.image hh, Words.inst, ← h.boundary hl]
  rfl

/-- the internal path finds the word of an address and its byte offset -/
theorem addr_fields (a : BitVec 32) :
    a.extractLsb' 2 8 = wordIdx (a.setWidth 64) ∧ (a.extractLsb' 0 2).toNat = (a.setWidth 64).toNat % 4 := by
  have ha := a.isLt
  constructor
  · apply BitVec.eq_of_toNat_eq
    simp only [wordIdx, BitVec.extractLsb'_toNat, BitVec.toNat_setWidth]
    rw [Nat.mod_eq_of_lt (by omega : a.toNat < 2 ^ 64)]
  · simp only [BitVec.extractLsb'_toNat, BitVec.toNat_setWidth, Nat.shiftRight_zero]
    omega

/-- the second cycle of a load -/
theorem takeLoad_arch (h : Internal img r m) (hl : r.loadWait = true) : arch (takeLoad r) = (m.next img).arch := by
  have hload := h.loading hl
  obtain ⟨hw, ho⟩ := addr_fields (addr (m.inst img) m.arch)
  have hres : loadRes r = extend (byteOp (m.inst img)) (halfOp (m.inst img)) (signedOp (m.inst img)) (m.data img) := by
    rw [loadRes, hload.ldByte, hload.ldHalf, hload.ldSigned, hload.ldAddr, h.dmem, hw, ho]
    rfl
  have hisLoad : RiscVICore.isLoad (fetch img m.arch.pc) = true := hload.isLoad
  simp only [arch, takeLoad, hres, hload.pc, hload.rf, hload.ldRd, Words.next, exec, hisLoad, ite_true]
  rfl

theorem internal_takeLoad (h : Internal img r m) (hl : r.loadWait = true) : Internal img (takeLoad r) (m.next img) := by
  have hload := h.loading hl
  have hst : isStore (m.inst img) = false := isStore_of_isLoad hload.isLoad
  refine ⟨h.running, fun _ => h.image hload.running, h.noMem, ?_, fun _ => takeLoad_arch h hl, fun hc => ?_, fun hc => ?_⟩
  · simp only [takeLoad, h.dmem, Words.next, hst, Bool.false_eq_true, ite_false]
  · exact absurd hc Bool.false_ne_true
  · exact absurd (hload.running.symm.trans hc) Bool.false_ne_true

section Boundary

variable (h : Internal img r m) (hh : r.halted = false) (hl : r.loadWait = false)

include h hh hl

theorem internal_halt (hhalt : isHalt (RiscVICore.inst r) = true) : Internal img (halt r) m :=
  ⟨h.running, fun hc => absurd hc.symm Bool.false_ne_true, h.noMem, h.dmem, fun _ => h.boundary hl,
    fun hc => absurd (hl.symm.trans hc) Bool.false_ne_true, fun _ => h.inst hh hl ▸ hhalt⟩

theorem internal_startLoad (hload : RiscVICore.isLoad (RiscVICore.inst r) = true) : Internal img (startLoad r) m := by
  have hinst := h.inst hh hl
  have harch := h.boundary hl
  refine ⟨h.running, fun _ => h.image hh, h.noMem, h.dmem, fun hc => absurd hc.symm Bool.false_ne_true, fun _ => ?_,
    fun hc => absurd (hh.symm.trans hc) Bool.false_ne_true⟩
  exact
    { running := hh
      isLoad := hinst ▸ hload
      pc := by rw [← hinst, ← harch]; rfl
      rf := by rw [← harch]; rfl
      ldAddr := by rw [← hinst, ← harch]; rfl
      ldRd := by rw [← hinst]; rfl
      ldByte := by rw [← hinst]; rfl
      ldHalf := by rw [← hinst]; rfl
      ldSigned := by rw [← hinst]; rfl }

theorem internal_storeWord (hst : isStore (RiscVICore.inst r) = true) : Internal img (storeWord r) (m.next img) := by
  have hinst := h.inst hh hl
  have harch := h.boundary hl
  have hst' : isStore (m.inst img) = true := hinst ▸ hst
  have hnl : RiscVICore.isLoad (m.inst img) = false := by
    cases hc : RiscVICore.isLoad (m.inst img) with
    | false => rfl
    | true => exact absurd ((isStore_of_isLoad hc).symm.trans hst') Bool.false_ne_true
  refine ⟨h.running, fun _ => h.image hh, h.noMem, ?_, fun _ => ?_, fun hc => absurd (hl.symm.trans hc) Bool.false_ne_true,
    fun hc => absurd (hh.symm.trans hc) Bool.false_ne_true⟩
  · simp only [storeWord, hinst, harch, h.dmem, (addr_fields _).1, Words.next, hst', ite_true]
    rfl
  · have hfetch : fetch img (arch r).pc = RiscVICore.inst r := by rw [harch]; exact hinst.symm
    rw [← hinst] at hnl
    simp only [Words.next, exec, hfetch, hnl, hst, Bool.false_eq_true, ite_false, ite_true, ← harch]
    rfl

theorem internal_compute (hmem : isMem (RiscVICore.inst r) = false) : Internal img (compute r) (m.next img) := by
  have hinst := h.inst hh hl
  have harch := h.boundary hl
  have hls : RiscVICore.isLoad (RiscVICore.inst r) = false ∧ isStore (RiscVICore.inst r) = false := by
    simpa [isMem] using hmem
  refine ⟨h.running, fun _ => h.image hh, h.noMem, ?_, fun _ => ?_, fun hc => absurd (hl.symm.trans hc) Bool.false_ne_true,
    fun hc => absurd (hh.symm.trans hc) Bool.false_ne_true⟩
  · simp only [compute, h.dmem, Words.next, ← hinst, hls.2, Bool.false_eq_true, ite_false]
  · have hfetch : fetch img (arch r).pc = RiscVICore.inst r := by rw [harch]; exact hinst.symm
    simp only [Words.next, exec, hfetch, hls.1, hls.2, Bool.false_eq_true, ite_false, ← harch]
    rfl

end Boundary

/-- **One cycle of the core with the internal memory.** -/
theorem internal_step (h : Internal img r m) (hf : Fixed r i) :
    Internal img (RiscVICore.next false r i) (if retires false r i then m.next img else m) ∧
      (retires false r i = true → arch (RiscVICore.next false r i) = (m.next img).arch ∧ isHalt (m.inst img) = false ∧
        (RiscVICore.next false r i).loadWait = false) := by
  cases hh : r.halted with
  | true =>
    obtain ⟨harch, hhalt, hmem, hload, hd⟩ := @next_halted false r i hh
    have hl : r.loadWait = false := by
      cases hl : r.loadWait with
      | false => rfl
      | true => exact absurd ((h.loading hl).running.symm.trans hh) Bool.false_ne_true
    have hret : retires false r i = false := by simp [retires, hh]
    rw [hret]
    refine ⟨⟨?_, fun hc => ?_, hmem.trans h.noMem, hd.trans h.dmem, fun _ => harch.trans (h.boundary hl), fun hc => ?_,
      fun _ => h.sentinel hh⟩, fun hc => absurd hc Bool.false_ne_true⟩
    · simp [RiscVICore.next, h.running]
    · exact absurd (hc.symm.trans hhalt) Bool.false_ne_true
    · exact absurd (hl.symm.trans (hload.symm.trans hc)) Bool.false_ne_true
  | false =>
    rw [next_running h.running hh (hf hh)]
    cases hl : r.loadWait with
    | true =>
      have hret : retires false r i = true := by simp [retires, h.running, hh, hl]
      rw [hret, execute_takeLoad hl]
      have hmem : isMem (m.inst img) = true := by simp [isMem, (h.loading hl).isLoad]
      exact ⟨internal_takeLoad h hl, fun _ => ⟨takeLoad_arch h hl, isHalt_of_isMem hmem, rfl⟩⟩
    | false =>
      have hinst := h.inst hh hl
      cases hhalt : isHalt (RiscVICore.inst r) with
      | true =>
        have hret : retires false r i = false := by simp [retires, hl, h.noMem, hhalt]
        rw [hret, execute_halt hl h.noMem hhalt]
        exact ⟨internal_halt h hh hl hhalt, fun hc => absurd hc Bool.false_ne_true⟩
      | false =>
        have hhalt' : isHalt (m.inst img) = false := hinst ▸ hhalt
        cases hmem : isMem (RiscVICore.inst r) with
        | false =>
          have hret : retires false r i = true := by simp [retires, h.running, hh, hl, h.noMem, hhalt, hmem]
          have hstep := internal_compute h hh hl hmem
          rw [hret, execute_compute hl h.noMem hhalt hmem]
          exact ⟨hstep, fun _ => ⟨hstep.boundary hl, hhalt', hl⟩⟩
        | true =>
          cases hload : RiscVICore.isLoad (RiscVICore.inst r) with
          | true =>
            have hret : retires false r i = false := by
              simp [retires, hl, h.noMem, hmem, isStore_of_isLoad hload]
            rw [hret, execute_startLoad hl h.noMem hload]
            exact ⟨internal_startLoad h hh hl hload, fun hc => absurd hc Bool.false_ne_true⟩
          | false =>
            have hst : isStore (RiscVICore.inst r) = true := by simpa [isMem, hload] using hmem
            have hret : retires false r i = true := by simp [retires, h.running, hh, hl, h.noMem, hhalt, hst]
            have hstep := internal_storeWord h hh hl hst
            rw [hret, execute_storeWord hl h.noMem hst]
            exact ⟨hstep, fun _ => ⟨hstep.boundary hl, hhalt', hl⟩⟩

end Internal

/-! ## Runs of the internal path -/

/-- the image is not rewritten before the core halts; an executed access is aligned and in range, and agrees if it is a
store -/
def Meets (r : RiscVICore.Reg) (i : RiscVICore.In) : Prop :=
  Fixed r i ∧ (r.halted = false → r.loadWait = false → isMem (RiscVICore.inst r) = true →
    InRange (memReq r) ∧ (isStore (RiscVICore.inst r) = true → StoreAgrees r.dmem (memReq r)))

instance (r : RiscVICore.Reg) (i : RiscVICore.In) : Decidable (Meets r i) := inferInstanceAs (Decidable (_ ∧ _))

/-- the architectural state at an instruction boundary reached in this cycle -/
def retiredWords (r : RiscVICore.Reg) (i : RiscVICore.In) : List Arch :=
  if retires false r i then [arch (RiscVICore.next false r i)] else []

section InternalRun

variable {img : BitVec 8 → BitVec 32} {r : RiscVICore.Reg} {i : RiscVICore.In} {n : ℕ}

/-- the core stands at instruction `n`; all the executed accesses are good -/
structure TracksWords (img : BitVec 8 → BitVec 32) (r : RiscVICore.Reg) (n : ℕ) : Prop where
  stands : Internal img r (words img n)
  past : ∀ k < n, isHalt ((words img k).inst img) = false ∧ (words img k).Good img
  present : r.loadWait = true → (words img n).Good img

/-- an access that is executed now -/
theorem good_of_meets (h : Internal img r (words img n)) (hm : Meets r i) (hh : r.halted = false)
    (hl : r.loadWait = false) : (words img n).Good img := by
  intro hmem
  have hinst := h.inst hh hl
  have hreq : memReq r = (words img n).req img := by rw [memReq, hinst, h.boundary hl]; rfl
  have hgood := hm.2 hh hl (hinst ▸ hmem)
  rwa [hinst, hreq, h.dmem] at hgood

theorem tracksWords_step (h : TracksWords img r n) (hm : Meets r i) :
    TracksWords img (RiscVICore.next false r i) (n + (retiredWords r i).length) ∧
      retiredWords r i = (List.range (retiredWords r i).length).map fun k => (words img (n + k + 1)).arch := by
  obtain ⟨hstep, hret⟩ := internal_step h.stands hm.1
  have hgood : r.halted = false → (words img n).Good img := fun hh => by
    cases hl : r.loadWait with
    | true => exact h.present hl
    | false => exact good_of_meets h.stands hm hh hl
  cases hr : retires false r i with
  | true =>
    obtain ⟨harch, hhalt, hl'⟩ := hret hr
    have hh : r.halted = false := by
      simp only [retires, Bool.and_eq_true, Bool.not_eq_true'] at hr
      exact hr.1.2
    have hone : retiredWords r i = [(words img (n + 1)).arch] := by rw [retiredWords, hr, if_pos rfl, harch, words_succ]
    rw [hr, if_pos rfl, ← words_succ] at hstep
    rw [hone]
    refine ⟨⟨hstep, fun k hk => ?_, fun hc => absurd (hl'.symm.trans hc) Bool.false_ne_true⟩, rfl⟩
    rcases Nat.lt_succ_iff_lt_or_eq.1 hk with hk | rfl
    · exact h.past k hk
    · exact ⟨hhalt, hgood hh⟩
  | false =>
    have hnone : retiredWords r i = [] := by rw [retiredWords, hr]; rfl
    rw [hr, if_neg Bool.false_ne_true] at hstep
    rw [hnone]
    exact ⟨⟨hstep, h.past, fun hl' => hgood (by
      have hh' := (hstep.loading hl').running
      cases hh : r.halted with
      | false => rfl
      | true => exact absurd (hh'.symm.trans (@next_halted false r i hh).2.1) Bool.false_ne_true)⟩, rfl⟩

theorem tracksWords_run (h : TracksWords img r n) {exe : List RiscVICore.In}
    (hm : Always (RiscVICore.next false) Meets r exe) :
    TracksWords img (run (RiscVICore.next false) r exe) (n + (collect (RiscVICore.next false) retiredWords r exe).length) ∧
      collect (RiscVICore.next false) retiredWords r exe =
        (List.range (collect (RiscVICore.next false) retiredWords r exe).length).map
          fun k => (words img (n + k + 1)).arch := by
  induction exe generalizing r n with
  | nil => exact ⟨h, rfl⟩
  | cons i exe ih =>
    obtain ⟨hstep, hret⟩ := tracksWords_step h hm.1
    obtain ⟨hrun, hrets⟩ := ih hstep hm.2
    rw [collect_cons, List.length_append, ← Nat.add_assoc]
    refine ⟨hrun, ?_⟩
    rw [List.range_add, List.map_append, ← hret, List.map_map]
    conv_lhs => rw [hrets]
    simp only [Function.comp_def, Nat.add_assoc]

/-- a halted core stands at the sentinel -/
theorem TracksWords.halted (h : TracksWords img r n) (hh : r.halted = true) :
    isHalt ((words img n).inst img) = true ∧ arch r = (words img n).arch := by
  refine ⟨h.stands.sentinel hh, h.stands.boundary ?_⟩
  cases hl : r.loadWait with
  | false => rfl
  | true => exact absurd ((h.stands.loading hl).running.symm.trans hh) Bool.false_ne_true

/-- the start cycle -/
theorem tracksWords_start {go : RiscVICore.In} (h : Unstarted r) (hgo : go.start = true) :
    TracksWords (RiscVICore.next false r go).imem (RiscVICore.next false r go) 0 := by
  rw [h]
  refine ⟨?_, fun k hk => absurd hk (Nat.not_lt_zero k), fun hc => ?_⟩
  · constructor <;> simp [RiscVICore.next, RiscVICore.reset, hgo, words, boot, arch]
  · exact absurd hc (by simp [RiscVICore.next, RiscVICore.reset])

/-- a running core that does not use the word port -/
structure Inward (r : RiscVICore.Reg) : Prop where
  running : r.running = true
  noMem : r.memWait = false

theorem inward_step (h : Inward r) (i : RiscVICore.In) : Inward (RiscVICore.next false r i) := by
  refine ⟨by simp [RiscVICore.next, h.running], ?_⟩
  simp only [RiscVICore.next, execute, h.noMem]
  split_ifs <;> first | exact h.noMem | contradiction

/-- the cycles before the last one of the instruction at hand, at most -/
def ahead (r : RiscVICore.Reg) : ℕ := if r.loadWait then 0 else 1

theorem ahead_le (r : RiscVICore.Reg) : ahead r ≤ 1 := by
  unfold ahead
  split_ifs <;> decide

/-- a load takes two cycles and every other instruction one -/
theorem internal_pace_step (h : Inward r) (hh : r.halted = false) :
    (RiscVICore.next false r i).halted = true ∨
      ahead (RiscVICore.next false r i) + [i].length ≤ ahead r + (1 + 1) * (retiredWords r i).length := by
  have hretired : retires false r i = true → (retiredWords r i).length = 1 := fun hret => by simp [retiredWords, hret]
  have hbound := ahead_le (RiscVICore.next false r i)
  cases hl : r.loadWait with
  | true =>
    rw [hretired (by simp [retires, h.running, hh, hl]), List.length_singleton]
    omega
  | false =>
    cases hhalt : isHalt (RiscVICore.inst r) with
    | true =>
      rw [next_execute h.running hh, execute_halt hl h.noMem hhalt]
      exact .inl rfl
    | false =>
      cases hload : RiscVICore.isLoad (RiscVICore.inst r) with
      | true =>
        rw [next_execute h.running hh, execute_startLoad hl h.noMem hload]
        refine .inr (Nat.le_add_right_of_le ?_)
        simp [ahead, startLoad, hl]
      | false =>
        have hret : retires false r i = true := by
          simp [retires, h.running, hh, hl, h.noMem, hhalt, isMem, hload]
        rw [hretired hret, List.length_singleton]
        omega

/-- **The internal path gets on**: nothing holds it up. -/
theorem internal_paced (n : ℕ) (h : Inward r) {exe : List RiscVICore.In} (hlen : n * 2 ≤ exe.length) :
    (run (RiscVICore.next false) r exe).halted = true ∨ n ≤ (collect (RiscVICore.next false) retiredWords r exe).length :=
  paced (P := fun r : RiscVICore.Reg => r.halted = true) Inward ahead (fun _ i h => inward_step h i)
    (fun _ _ hh => (RiscVICore.next_halted hh).2.1) ahead_le (fun _ _ h hh => internal_pace_step h (Bool.eq_false_iff.2 hh))
    n h (by rwa [← inputs_length (RiscVICore.next false) (fun _ i => i) r exe] at hlen)

end InternalRun

/-! ## The two machines side by side -/

section Matching

variable {img : BitVec 8 → BitVec 32}

/-- the same architectural state and the same 1024 bytes -/
def Matches (w : Words) (m : Mach (BitVec 58)) : Prop := w.arch = m.arch ∧ Same w.dmem m.mem

theorem Matches.inst {w : Words} {m : Mach (BitVec 58)} (h : Matches w m) : w.inst img = m.inst img := by
  rw [Words.inst, h.1]
  rfl

theorem Matches.req {w : Words} {m : Mach (BitVec 58)} (h : Matches w m) : w.req img = m.req img := by
  rw [Words.req, Mach.req, h.inst, h.1]

/-- only a load reads the data, and only through the extension -/
theorem exec_eq {a : Arch} {d d' : BitVec 32}
    (h : isLoad (fetch img a.pc) = true →
      extend (byteOp (fetch img a.pc)) (halfOp (fetch img a.pc)) (signedOp (fetch img a.pc)) d =
        extend (byteOp (fetch img a.pc)) (halfOp (fetch img a.pc)) (signedOp (fetch img a.pc)) d') :
    exec img a d = exec img a d' := by
  cases hl : isLoad (fetch img a.pc) with
  | true => simp [exec, hl, h hl]
  | false => simp [exec, hl]

/-- **One instruction on both paths.** -/
theorem matches_next {w : Words} {m : Mach (BitVec 58)} (h : Matches w m) (hg : w.Good img) :
    Matches (w.next img) (m.next img lineAddr) := by
  have hinst : w.inst img = m.inst img := h.inst
  have hreq : w.req img = m.req img := h.req
  obtain ⟨harch, hS⟩ := h
  refine ⟨?_, ?_⟩
  · simp only [Words.next, Mach.next, harch]
    refine exec_eq fun hl => ?_
    have hl : isLoad (m.inst img) = true := hl
    obtain ⟨hr, -⟩ := hg (by rw [hinst]; simp [isMem, hl])
    rw [hreq] at hr
    rw [Words.data, Mach.data, isStore_of_isLoad hl, hreq]
    exact (load_same hr hS (bytes_request _ _)).symm
  · simp only [Words.next, Mach.next, hinst, hreq]
    cases hst : isStore (m.inst img) with
    | false => exact hS
    | true =>
      obtain ⟨hr, ha⟩ := hg (by rw [hinst]; simp [isMem, hst])
      rw [hreq] at hr ha
      exact (store_same_iff hr hS).2 (ha (hinst.symm ▸ hst))

theorem matches_all {n : ℕ} (h : ∀ k < n, (words img k).Good img) :
    ∀ k ≤ n, Matches (words img k) (mach img lineAddr (fun _ => 0) k) := by
  intro k hk
  induction k with
  | zero => exact ⟨rfl, fun w => by simp [words, mach, wordOf, lane]⟩
  | succ k ih =>
    rw [words_succ, mach_succ]
    exact matches_next (ih (by omega)) (h k (by omega))

/-- the first store that does not agree makes the memories differ -/
theorem store_exact {k : ℕ} (h : ∀ j < k, (words img j).Good img) (hst : isStore ((words img k).inst img) = true)
    (hr : InRange ((words img k).req img)) :
    Same (words img (k + 1)).dmem (mach img lineAddr (fun _ => 0) (k + 1)).mem ↔
      StoreAgrees (words img k).dmem ((words img k).req img) := by
  have hM := matches_all h k le_rfl
  have hst' := hM.inst ▸ hst
  rw [words_succ, mach_succ, ← store_same_iff hr hM.2]
  simp only [Words.next, Mach.next, hst, hst', ite_true, Mach.line, ← hM.req]

end Matching

/-! ## Whole runs -/

/-- the core with the internal memory, loaded and started -/
def startInternal (load : List RiscVICore.In) (go : RiscVICore.In) : RiscVICore.Reg :=
  run (RiscVICore.next false) RiscVICore.reset (load ++ [go])

/-- the lane on a zero line memory, loaded and started -/
def startExternal (load : List (In (BitVec 58))) (go : In (BitVec 58)) : Sys (BitVec 58) :=
  run (step lineAddr) ⟨CpuLane.reset, fun _ => 0, none⟩ (load ++ [go])

/-- the image of the lane is not rewritten before its core halts -/
def LaneFixed (s : Sys (BitVec 58)) (i : In (BitVec 58)) : Prop := Fixed s.own.core (coreIn s.own i.ext)

instance (s : Sys (BitVec 58)) (i : In (BitVec 58)) : Decidable (LaneFixed s i) := inferInstanceAs (Decidable (Fixed _ _))

/-- what the cycles `exeI` of the internal path from `r₁` and the cycles `exeE` of the lane from `s₁` have in common -/
structure Agreement (r₁ : RiscVICore.Reg) (exeI : List RiscVICore.In) (s₁ : Sys (BitVec 58))
    (exeE : List (In (BitVec 58))) : Prop where
  /-- the states at instruction boundaries are the same, as far as both runs go -/
  states : collect (RiscVICore.next false) retiredWords r₁ exeI <+: collect (step lineAddr) retired s₁ exeE ∨
    collect (step lineAddr) retired s₁ exeE <+: collect (RiscVICore.next false) retiredWords r₁ exeI
  /-- if both cores halt, they have retired the same, and the 1024 bytes are the same -/
  halted : (run (RiscVICore.next false) r₁ exeI).halted = true → (run (step lineAddr) s₁ exeE).own.core.halted = true →
    collect (RiscVICore.next false) retiredWords r₁ exeI = collect (step lineAddr) retired s₁ exeE ∧
      arch (run (RiscVICore.next false) r₁ exeI) = arch (run (step lineAddr) s₁ exeE).own.core ∧
      Same (run (RiscVICore.next false) r₁ exeI).dmem (run (step lineAddr) s₁ exeE).mem
  /-- the internal path completes an instruction in every two cycles until it halts -/
  paceInternal : ∀ n more, n * 2 ≤ more.length → (run (RiscVICore.next false) r₁ (exeI ++ more)).halted = true ∨
    n ≤ (collect (RiscVICore.next false) retiredWords (run (RiscVICore.next false) r₁ exeI) more).length
  /-- so does the external path in every six cycles in which the line memory does not hold it up -/
  paceExternal : ∀ n more, n * 6 ≤ (collect (step lineAddr) CpuPace.unstalled (run (step lineAddr) s₁ exeE) more).length →
    (run (step lineAddr) s₁ (exeE ++ more)).own.core.halted = true ∨
      n ≤ (collect (step lineAddr) retired (run (step lineAddr) s₁ exeE) more).length
  /-- the condition on stores is exact: the first one that does not agree makes the memories differ -/
  exact : ∀ k, (∀ j < k, (words r₁.imem j).Good r₁.imem) → isStore ((words r₁.imem k).inst r₁.imem) = true →
    InRange ((words r₁.imem k).req r₁.imem) →
    (Same (words r₁.imem (k + 1)).dmem (mach r₁.imem lineAddr (fun _ => 0) (k + 1)).mem ↔
      StoreAgrees (words r₁.imem k).dmem ((words r₁.imem k).req r₁.imem))

/-- **The two paths agree** in every run whose executed accesses are aligned, in range and, for stores, agree. The port
of the line memory accepts and answers whenever it likes; nobody else uses the memory. -/
theorem paths_agree (loadI : List RiscVICore.In) (goI : RiscVICore.In) (exeI : List RiscVICore.In)
    (loadE : List (In (BitVec 58))) (goE : In (BitVec 58)) (exeE : List (In (BitVec 58)))
    (hloadI : ∀ i ∈ loadI, i.start = false) (hgoI : goI.start = true) (hloadE : ∀ i ∈ loadE, i.ext.start = false)
    (hgoE : goE.ext.start = true) (halone : ∀ i ∈ loadE ++ goE :: exeE, i.others = [])
    (himg : (startExternal loadE goE).own.core.imem = (startInternal loadI goI).imem)
    (hI : Always (RiscVICore.next false) Meets (startInternal loadI goI) exeI)
    (hE : Always (step lineAddr) LaneFixed (startExternal loadE goE) exeE) :
    Agreement (startInternal loadI goI) exeI (startExternal loadE goE) exeE := by
  have hW₀ : TracksWords (startInternal loadI goI).imem (startInternal loadI goI) 0 := by
    rw [startInternal, run_snoc]
    exact tracksWords_start (unstarted_run hloadI rfl) hgoI
  have hquiet : ∀ i ∈ loadE ++ goE :: exeE, ∀ w ∈ i.others, ¬ True := fun i hi w hw => by
    rw [halone i hi] at hw
    exact absurd hw List.not_mem_nil
  have hT₀ : Tracks (startInternal loadI goI).imem lineAddr (fun _ => True) (fun _ => 0) (startExternal loadE goE) [] [] := by
    have hboot : Booting (fun _ => True) (fun _ => 0) (⟨CpuLane.reset, fun _ => 0, none⟩ : Sys (BitVec 58)) :=
      ⟨rfl, rfl, rfl, fun _ _ => rfl⟩
    rw [← himg]
    exact tracks_boot hboot (always_imp (fun i hi _ _ => ⟨hloadE i hi, hquiet i (by simp [hi])⟩) (always_true _ _ _)) hgoE
      (hquiet goE (by simp))
  have hkept : Always (step lineAddr) (Kept lineAddr fun _ => True) (startExternal loadE goE) exeE :=
    always_imp (fun i hi _ hf => ⟨hf, hquiet i (by simp [hi]), fun _ _ => trivial⟩) hE
  obtain ⟨hW, hretI⟩ := tracksWords_run hW₀ hI
  obtain ⟨hT, hretE⟩ := tracks_run hT₀ hkept
  have hmatch := matches_all fun k hk => (hW.past k hk).2
  simp only [Nat.zero_add, List.nil_append, List.length_nil] at hW hretI hT hretE hmatch
  generalize (collect (RiscVICore.next false) retiredWords (startInternal loadI goI) exeI).length = n at hW hretI hmatch
  generalize hds : (collect (step lineAddr) returned (startExternal loadE goE) exeE) = ds at hT hretE
  have hinward : Inward (run (RiscVICore.next false) (startInternal loadI goI) exeI) := ⟨hW.stands.running, hW.stands.noMem⟩
  have hattached : CpuPace.Attached (run (step lineAddr) (startExternal loadE goE) exeE) := by
    rw [startExternal, ← run_append]
    exact CpuPace.attached_run _ _
  refine ⟨?_, fun hhI hhE => ?_, fun k more hmore => ?_, fun k more hmore => ?_, fun k => store_exact⟩
  · rw [hretI, hretE]
    rcases le_total n ds.length with hle | hle
    · exact .inl (map_range_initial hle fun k hk => (hmatch (k + 1) hk).1)
    · exact .inr (map_range_initial hle fun k hk => (hmatch (k + 1) (by omega)).1.symm)
  · obtain ⟨hsentI, harchI⟩ := hW.halted hhI
    obtain ⟨hsentE, harchE, -, hagree⟩ := hT.halted hhE
    have hn : n = ds.length := by
      rw [(hmatch n le_rfl).inst] at hsentI
      refine first_unique (p := fun k => isHalt ((mach _ lineAddr _ k).inst _) = true) (fun k hk => ?_) hsentI
        (fun k hk => ?_) hsentE
      · rw [← (hmatch k hk.le).inst, (hW.past k hk).1]
        exact Bool.false_ne_true
      · rw [hT.noHalt k hk]
        exact Bool.false_ne_true
    obtain ⟨harch, hS⟩ := hmatch n le_rfl
    refine ⟨?_, by rw [harchI, harchE, ← hn, harch], fun w => ?_⟩
    · rw [hretI, hretE, ← hn]
      exact List.map_congr_left fun k hk => (hmatch (k + 1) (List.mem_range.1 hk)).1
    · rw [hW.stands.dmem, hS w, wordOf, wordOf, hagree _ trivial, hn]
  · rw [run_append]
    exact internal_paced k hinward hmore
  · rw [run_append]
    exact CpuPace.lane_paced k hattached hT.follows.running hmore

/-- the boot writes that load a program at address 0 -/
def program (ws : List (BitVec 32)) : List Boot := ws.zipIdx.map fun w => ⟨true, BitVec.ofNat 8 w.2, w.1, false⟩

def go : Boot := ⟨false, 0, 0, true⟩

def idle : Boot := ⟨false, 0, 0, false⟩

/-- a cycle of the internal path -/
def internalIn (x : Boot) : RiscVICore.In := ⟨x.progWe, x.progAddr, x.progData, x.start, false, false, 0⟩

/-- a cycle of the lane on a memory that accepts and answers at once -/
def externalIn (x : Boot) : In (BitVec 58) := ⟨x, true, true, 0, []⟩

/-- `addi x1, x0, 5`, `sb x1, 12(x0)`, `sw x1, 8(x0)`, `lb x2, 12(x0)`, halt -/
def agreeing : List (BitVec 32) := [Asm.addi 1 0 5, Asm.sb 0 1 12, Asm.sw 0 1 8, Asm.lb 2 0 12, Asm.halt]

theorem paths_agree_words :
    Agreement (startInternal ((program agreeing).map internalIn) (internalIn go)) (List.replicate 7 (internalIn idle))
        (startExternal ((program agreeing).map externalIn) (externalIn go)) (List.replicate 20 (externalIn idle)) ∧
      (run (RiscVICore.next false) (startInternal ((program agreeing).map internalIn) (internalIn go))
        (List.replicate 7 (internalIn idle))).rf 2 = 5 :=
  ⟨paths_agree _ _ _ _ _ _ (by decide) rfl (by decide) rfl (by decide) (funext (by decide +kernel)) (by decide +kernel)
    (by decide +kernel), by decide +kernel⟩

/-- `addi x1, x0, 1`, `sb x1, 1(x0)`, `lw x2, 0(x0)`, halt -/
def disagreeing : List (BitVec 32) := [Asm.addi 1 0 1, Asm.sb 0 1 1, Asm.lw 2 0 0, Asm.halt]

/-- **The byte store goes wrong on the internal path**: it writes the byte for address 1 to address 0, and the load
that follows returns another word than on the external path. Both cores halt, and every access is aligned and in
range. -/
theorem byte_store_differs :
    let r₁ := startInternal ((program disagreeing).map internalIn) (internalIn go)
    let s₁ := startExternal ((program disagreeing).map externalIn) (externalIn go)
    let r := run (RiscVICore.next false) r₁ (List.replicate 5 (internalIn idle))
    let s := run (step lineAddr) s₁ (List.replicate 12 (externalIn idle))
    Always (RiscVICore.next false) (fun r _ => isMem (RiscVICore.inst r) = true → InRange (memReq r)) r₁
        (List.replicate 5 (internalIn idle)) ∧
      r.halted = true ∧ s.own.core.halted = true ∧ r.rf 2 = 1 ∧ s.own.core.rf 2 = 0x100 ∧ r.dmem 0 = 1 ∧
      wordOf s.mem 0 = 0x100 := by
  decide +kernel

end AegisSoc.DataPaths
