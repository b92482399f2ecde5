import MyUnix.Kernel.CMem
import MyUnix.Lib.Digits
import MyUnix.Mm.HeapRun
import MyUnix.Proc.Getrandom

/-!
# `Mm.HeapBytes` — the payloads of the heap, byte by byte

The heap is a memory of words, its clients store bytes. The words of the heap are such a memory, so the loops of
`memset` and `memcpy` run on it; and the lists of the heap are written into headers only, so a call of `kmalloc` or
`kfree` leaves every byte of every other live payload as it is.

A byte belongs to a word, and a word may belong to a header or to a payload but never to both, because headers and
payloads begin at multiples of 16.
-/

namespace MyUnix.Mm

open Lib Lib.ByteStore Kernel

/-- The words of the heap as bytes. -/
instance : ByteStore Words where
  get m a := UInt8.ofNat (digit 256 (m (a / 8 * 8)) (a % 8))
  set m a b := m.setByte a b
  get_set_self m a b := by
    have hword : m.setByte a b (a / 8 * 8) = setDigit 256 (m (a / 8 * 8)) (a % 8) b.toNat := Function.update_self _ _ _
    rw [hword, digit_setDigit_self b.toNat_lt, UInt8.ofNat_toNat]
  get_set_of_ne m a b x hx := by
    by_cases hw : x / 8 * 8 = a / 8 * 8
    · have hword : m.setByte a b (x / 8 * 8) = setDigit 256 (m (x / 8 * 8)) (a % 8) b.toNat := by
        rw [hw]
        exact Function.update_self _ _ _
      rw [hword, digit_setDigit_of_ne b.toNat_lt (by omega)]
    · have hword : m.setByte a b (x / 8 * 8) = m (x / 8 * 8) := Function.update_of_ne hw _ _
      rw [hword]

/-- A byte is read from its word. -/
theorem get_congr {m m' : Words} {x : Nat} (h : m' (x / 8 * 8) = m (x / 8 * 8)) : get m' x = get m x := by
  show UInt8.ofNat (digit 256 (m' _) _) = UInt8.ofNat (digit 256 (m _) _)
  rw [h]

/-! ## What the heap leaves alone

One lemma for each loop of the heap, by what it writes.
-/

/-- No byte of a payload is changed. -/
def KeepsPayload (l : Nat × Nat) (m m' : Words) : Prop := ∀ x, l.1 ≤ x → x < l.1 + l.2 → get m' x = get m x

theorem KeepsPayload.refl (l : Nat × Nat) (m : Words) : KeepsPayload l m m := fun _ _ _ => rfl

theorem KeepsPayload.trans {l : Nat × Nat} {m₁ m₂ m₃ : Words} (h : KeepsPayload l m₁ m₂) (h' : KeepsPayload l m₂ m₃) :
    KeepsPayload l m₁ m₃ := fun x hge hlt => (h' x hge hlt).trans (h x hge hlt)

/-- It is enough to look at the words of the payload. -/
theorem KeepsPayload.of_words {l : Nat × Nat} {m m' : Words} (halign : l.1 % 16 = 0)
    (h : ∀ w, l.1 ≤ w → w < l.1 + l.2 → m' w = m w) : KeepsPayload l m m' := by
  intro x hge hlt
  exact get_congr (h _ (by omega) (by omega))

namespace HeapRep

variable {h h' : Heap} {live : List (Nat × Nat)} {fl : List Nat} {len : Nat → Nat} {l : Nat × Nat}

theorem ptr_aligned (r : HeapRep h live fl len) (hl : l ∈ live) : l.1 % 16 = 0 := by
  have hblk := (r.block _ (List.mem_append_right fl (hdr_mem hl))).aligned
  have := r.ptr_eq hl
  omega

/-- A payload lies outside every block of the list, and below the end of the heap. -/
theorem payload_off (r : HeapRep h live fl len) (hl : l ∈ live) {w : Nat} (hge : l.1 ≤ w) (hlt : w < l.1 + l.2) :
    (∀ b ∈ fl, w < b ∨ b + len b ≤ w) ∧ w < h.heapEnd := by
  have hptr := r.ptr_eq hl
  have hown := hdr_mem hl
  have hlen := r.payload l hl
  have hblk := r.block _ (List.mem_append_right fl hown)
  refine ⟨fun b hb => ?_, ?_⟩
  · have hne : b ≠ l.1 - 32 := fun he => (List.nodup_append.mp r.nodup).2.2 b hb _ hown he
    have hap := r.packed.apart (List.mem_append_left _ hb) (List.mem_append_right fl hown) hne
    unfold Lib.Apart at hap
    omega
  · have h1 := hblk.real
    have h2 := hblk.below
    omega

/-- **Taking a block** writes its header, that of the remainder and links: no byte of a live payload. -/
theorem takeBlock_keeps {pre rest : List Nat} {best size ptr : Nat} (r : HeapRep h live (pre ++ best :: rest) len)
    (hlen : len best = 32 + h.mem.size best) (ht : h.takeBlock best size = some (ptr, h')) (hl : l ∈ live) :
    KeepsPayload l h.mem h'.mem := by
  refine .of_words (r.ptr_aligned hl) fun w hge hlt => ?_
  obtain ⟨hoff, -⟩ := r.payload_off hl hge hlt
  have hbest := hoff best (by simp)
  have hhdr : ∀ c ∈ pre, w ≠ c + 16 := by
    intro c hc
    have hcm : c ∈ pre ++ best :: rest := List.mem_append_left _ hc
    have h1 := hoff c hcm
    have h2 := (r.block c (List.mem_append_left _ hcm)).header
    omega
  by_cases hsplit : size + 48 ≤ h.mem.size best
  · obtain ⟨hperm, -⟩ := take_perm live pre rest best (best + 32) 0 rfl
    have hsplitOff : Heap.HdrOff (best + 32 + size) _ := r.hdrOff_split (by omega)
    obtain ⟨-, m, free, rfl, -, -, -, -, -, hframe⟩ :=
      Heap.takeBlock_split r.chain (List.nodup_append.mp r.nodup).1 r.hdrOff hsplit rfl
        (fun c hc => hsplitOff c (hperm.mem_iff.mp (List.mem_append_left _ hc))) ht
    exact hframe w (by omega) (by omega) hhdr
  · obtain ⟨-, m, free, rfl, -, -, -, hframe⟩ :=
      Heap.takeBlock_whole r.chain (List.nodup_append.mp r.nodup).1 r.hdrOff (by omega) ht
    exact hframe w (by omega) hhdr

/-- **Growing** writes above the end the heap had. -/
theorem grow_keeps (r : HeapRep h live fl len) {need : Nat} {ok : Bool} (hg : h.heapGrow need = some (ok, h'))
    (hl : l ∈ live) : KeepsPayload l h.mem h'.mem := by
  obtain ⟨-, -, -, -, -, -, -, -, hbelow, -⟩ := Heap.growBy_spec r.top_lt hg
  exact .of_words (r.ptr_aligned hl) fun w hge hlt => hbelow w (r.payload_off hl hge hlt).2

/-- **The loop of `kmalloc`** keeps every payload. -/
theorem retry_keeps {size fuel ptr : Nat} (r : HeapRep h live fl len)
    (hroom : ∀ a ∈ fl, size ≤ h.mem.size a → (∀ b ∈ fl, size ≤ h.mem.size b → h.mem.size a ≤ h.mem.size b) →
      ∀ b ∈ fl ++ liveHdrs live, b ≠ a → b < a ∨ a + 32 + h.mem.size a ≤ b)
    (hk : Heap.retry size fuel h = some (ptr, h')) (hl : l ∈ live) : KeepsPayload l h.mem h'.mem := by
  induction fuel generalizing h fl len with
  | zero => cases hk
  | succ fuel ih =>
    unfold Heap.retry at hk
    obtain ⟨best, hbest, hk⟩ := Option.bind_eq_some_iff.mp hk
    rcases Heap.searchBest_spec r.chain hbest with ⟨rfl, hnone⟩ | ⟨hmem, hge, -, hmin⟩
    · rw [if_pos rfl] at hk
      obtain ⟨⟨ok, h₁⟩, hg, hk⟩ := Option.bind_eq_some_iff.mp hk
      have hkeep := r.grow_keeps hg hl
      obtain ⟨hsizes, -, hdone⟩ := r.grow hg
      cases ok with
      | false =>
        cases hk
        exact hkeep
      | true =>
        obtain ⟨-, len₁, r₁, -⟩ := hdone rfl
        refine hkeep.trans (ih r₁ (fun a ha hsize _ b hb hne => ?_) hk)
        rcases List.mem_cons.mp ha with rfl | ha
        · -- all other blocks lie below the new one
          rcases List.mem_cons.mp hb with rfl | hb
          · exact absurd rfl hne
          · have := (r.block b hb).below
            omega
        · rw [hsizes a ha] at hsize
          have h1 := hnone a ha hsize
          have h2 := h.mem.size_lt (b := a)
          unfold sizeMax at h1
          omega
    · rw [if_neg (r.chain.ne_zero hmem)] at hk
      have hroom' := hroom best hmem hge hmin
      obtain ⟨pre, rest, rfl⟩ := List.append_of_mem hmem
      exact (r.refresh hroom').takeBlock_keeps (Function.update_self _ _ _) hk hl

/-- **A call of `kmalloc`** that the free list serves. -/
theorem kmalloc_large {size ptr : Nat} (r : HeapRep h live fl len) (hlarge : 32768 < size)
    (hok : SizesTrue ⟨h, live⟩ (.kmalloc size)) (hk : h.kmalloc size = some (ptr, h')) :
    (∃ fl' len', HeapRep h' (if ptr = 0 then live else (ptr, size) :: live) fl' len') ∧
      ∀ l ∈ live, KeepsPayload l h.mem h'.mem := by
  obtain ⟨hmax, hroom⟩ := (sizesTrue_iff r.chain).mp hok
  have hround : roundUp size heapAlign = (size + 15) / 16 * 16 := by
    unfold roundUp heapAlign
    rw [Nat.mod_eq_of_lt (by omega)]
  unfold Heap.kmalloc at hk
  rw [if_neg (by omega)] at hk
  simp only [slabServe_large (show 32768 < roundUp size heapAlign by omega)] at hk
  have hreq : size ≤ roundUp size heapAlign := by omega
  obtain ⟨fl', len', r', -⟩ := r.retry hreq (by omega) hroom hk
  exact ⟨⟨fl', len', r'⟩, fun l hl => r.retry_keeps hroom hk hl⟩

/-- **`kfree`** writes the header of the block. -/
theorem kfree_keeps {ptr : Nat} (r : HeapRep h live fl len) (hptr : ptr ∈ live.map Prod.fst)
    (hf : h.kfree ptr = some h') (hl : l ∈ live) : KeepsPayload l h.mem h'.mem := by
  obtain ⟨q, hq, rfl⟩ := List.mem_map.mp hptr
  have hq32 := r.ptr_eq hq
  refine .of_words (r.ptr_aligned hl) fun w hge hlt => ?_
  -- the payload lies off the header of the block that is freed
  have hout : w < q.1 - 32 ∨ q.1 - 32 + 32 ≤ w := by
    have hl32 := r.ptr_eq hl
    have hlen := r.payload l hl
    by_cases hne : q.1 - 32 = l.1 - 32
    · omega
    · have hap := r.packed.apart (List.mem_append_right fl (hdr_mem hq)) (List.mem_append_right fl (hdr_mem hl)) hne
      have hhdr := (r.block _ (List.mem_append_right fl (hdr_mem hq))).header
      unfold Lib.Apart at hap
      omega
  unfold Heap.kfree at hf
  rw [if_neg (by omega)] at hf
  simp only [heapBlockHdrSize, r.used _ (hdr_mem hq)] at hf
  rw [if_neg (by decide), if_neg (by simp)] at hf
  cases hf
  show ((h.mem.setMagic _ _).setChecksum _).setNext _ _ w = _
  rw [Words.setNext_of_ne (by omega), Words.setChecksum_of_ne (by omega), Words.setMagic_of_ne (by omega)]

/-! ### What clients write

A byte at a time, and a range with `memset` and `memcpy`.
-/

/-- A byte of a payload is stored. -/
theorem setByte (r : HeapRep h live fl len) (hl : l ∈ live) {x : Nat} (hge : l.1 ≤ x) (hlt : x < l.1 + l.2) (b : UInt8) :
    HeapRep { h with mem := set h.mem x b } live fl len := r.store hl hge hlt

theorem memset (hl : l ∈ live) (c : UInt8) : ∀ (n x : Nat) {h : Heap}, HeapRep h live fl len → l.1 ≤ x →
    x + n ≤ l.1 + l.2 → HeapRep { h with mem := Kernel.memset h.mem x c n } live fl len
  | 0, _, _, r, _, _ => r
  | n + 1, x, _, r, hge, hle => memset hl c n (x + 1) (r.setByte hl hge (by omega) c) (by omega) (by omega)

theorem memcpy (hl : l ∈ live) : ∀ (n x src : Nat) {h : Heap}, HeapRep h live fl len → l.1 ≤ x →
    x + n ≤ l.1 + l.2 → HeapRep { h with mem := Kernel.memcpy h.mem x src n } live fl len
  | 0, _, _, _, r, _, _ => r
  | n + 1, x, src, _, r, hge, hle => memcpy hl n (x + 1) (src + 1) (r.setByte hl hge (by omega) _) (by omega) (by omega)

end HeapRep

end MyUnix.Mm
