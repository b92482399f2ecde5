import MyUnix.Mm.Heap

/-!
# `Mm.HeapSpec` — what the heap operations do to the free list

One lemma per loop and per operation of `heap.c`, in terms of the `Chain` of free blocks and of the words that
change. None of them asks for an invariant of the whole heap: what a caller has to know (that a header lies
apart from others) is a hypothesis here, and `Mm.HeapRun` discharges it.

The words that an operation writes are always headers, or the link of a block on the list. So each lemma has two
parts: what the chain is afterwards, and that every word outside these headers is as it was. The second part is what a
client's payload needs, and it is also what keeps the other blocks of the list as they are.
-/

namespace MyUnix.Mm

open Lib

/-! ## Headers in memory

Reading a field after another one was written. The two fields that share a word are the reason for most of the lemmas.
-/

namespace Words

variable {m m' : Words} {b c v w : Nat}

theorem magic_congr (h : m' b = m b) : m'.magic b = m.magic b := by
  unfold magic
  rw [h]

theorem size_congr (h : m' b = m b) : m'.size b = m.size b := by
  unfold size
  rw [h]

theorem size_lt : m.size b < 2 ^ 32 := Nat.mod_lt _ (by decide)

@[simp] theorem magic_setMagic (hv : v < 2 ^ 32) : (m.setMagic b v).magic b = v := by
  unfold magic setMagic
  rw [Function.update_self]
  omega

@[simp] theorem size_setMagic (hv : v < 2 ^ 32) : (m.setMagic b v).size b = m.size b := by
  have := m.size_lt (b := b)
  rw [size, setMagic, Function.update_self]
  omega

@[simp] theorem magic_setSize : (m.setSize b v).magic b = m.magic b := by
  have : m.magic b < 2 ^ 32 := Nat.mod_lt _ (by decide)
  rw [magic, setSize, Function.update_self]
  omega

@[simp] theorem size_setSize (hv : v < 2 ^ 32) : (m.setSize b v).size b = v := by
  have : m.magic b < 2 ^ 32 := Nat.mod_lt _ (by decide)
  rw [size, setSize, Function.update_self]
  omega

theorem setMagic_of_ne (h : w ≠ b) : m.setMagic b v w = m w := Function.update_of_ne h _ _
theorem setSize_of_ne (h : w ≠ b) : m.setSize b v w = m w := Function.update_of_ne h _ _
theorem setPrev_of_ne (h : w ≠ b + 8) : m.setPrev b v w = m w := Function.update_of_ne h _ _
theorem setNext_of_ne (h : w ≠ b + 16) : m.setNext b v w = m w := Function.update_of_ne h _ _
theorem setChecksum_of_ne (h : w ≠ b + 24) : m.setChecksum b w = m w := Function.update_of_ne h _ _

@[simp] theorem next_setNext : (m.setNext b v).next b = v := Function.update_self _ _ _

theorem next_setNext_of_ne (h : c ≠ b) : (m.setNext b v).next c = m.next c := by
  exact setNext_of_ne (by omega)

/-- Words outside a header do not see it change. -/
theorem newBlock_of_out {size prev : Nat} (h : w < b ∨ b + 32 ≤ w) : m.newBlock b size prev w = m w := by
  unfold newBlock
  rw [setChecksum_of_ne (by omega), setPrev_of_ne (by omega), setSize_of_ne (by omega), setMagic_of_ne (by omega)]

theorem mapZeroed_of_out {start stop : Nat} (h : w < start ∨ stop ≤ w) : m.mapZeroed start stop w = m w :=
  if_neg (by omega)

theorem newBlock_head {size prev : Nat} :
    (m.newBlock b size prev).magic b = heapMagicFree ∧ (m.newBlock b size prev).size b = size % 2 ^ 32 := by
  have hword : m.newBlock b size prev b = ((m.setMagic b heapMagicFree).setSize b (size % 2 ^ 32)) b := by
    unfold newBlock
    rw [setChecksum_of_ne (by omega), setPrev_of_ne (by omega)]
  rw [magic_congr hword, size_congr hword, magic_setSize, magic_setMagic (by decide), size_setSize (by omega)]
  exact ⟨rfl, rfl⟩

end Words

namespace Heap

variable {m : Words} {s s' : Heap} {size best : Nat}

/-! ## The best-fit search

The loop leaves early at an exact fit. With the best block so far as its state, what it returns is that block or a
better one from the rest of the list.
-/

/-- **Best fit.** The search yields the block it was given when no block of the list improves on it, and
    otherwise a smallest sufficient block of the list. -/
theorem searchBest_spec {l : List Nat} {fuel blk bestSize r : Nat} (hc : Chain m.next blk l)
    (h : searchBest m size fuel blk best bestSize = some r) :
    (r = best ∧ ∀ b ∈ l, size ≤ m.size b → bestSize ≤ m.size b) ∨
    (r ∈ l ∧ size ≤ m.size r ∧ m.size r < bestSize ∧ ∀ b ∈ l, size ≤ m.size b → m.size r ≤ m.size b) := by
  induction fuel generalizing l blk best bestSize with
  | zero => cases h
  | succ fuel ih =>
      unfold searchBest at h
      cases l with
      | nil =>
          have h0 : blk = 0 := hc
          rw [if_pos h0] at h
          cases h
          exact Or.inl ⟨rfl, by simp⟩
      | cons b l =>
          obtain ⟨rfl, hb0, hl⟩ := hc
          rw [if_neg hb0] at h
          split at h
          · cases h
          split at h
          · rename_i hfit
            split at h
            · -- an exact fit ends the search
              rename_i hexact
              cases h
              refine Or.inr ⟨List.mem_cons_self, hfit.1, hfit.2, fun c _ hsize => ?_⟩
              rw [hexact]
              exact hsize
            · rcases ih hl h with ⟨rfl, hmin⟩ | ⟨hr, hge, hlt, hmin⟩
              · refine Or.inr ⟨List.mem_cons_self, hfit.1, hfit.2, fun c hc hsize => ?_⟩
                rcases List.mem_cons.mp hc with rfl | hc
                · exact Nat.le_refl _
                · exact hmin c hc hsize
              · refine Or.inr ⟨List.mem_cons_of_mem _ hr, hge, by omega, fun c hc hsize => ?_⟩
                rcases List.mem_cons.mp hc with rfl | hc
                · exact Nat.le_of_lt hlt
                · exact hmin c hc hsize
          · rename_i hno
            rcases ih hl h with ⟨rfl, hmin⟩ | ⟨hr, hge, hlt, hmin⟩
            · refine Or.inl ⟨rfl, fun c hc hsize => ?_⟩
              rcases List.mem_cons.mp hc with rfl | hc
              · omega
              · exact hmin c hc hsize
            · refine Or.inr ⟨List.mem_cons_of_mem _ hr, hge, hlt, fun c hc hsize => ?_⟩
              rcases List.mem_cons.mp hc with rfl | hc
              · omega
              · exact hmin c hc hsize

/-! ## Editing the list

`kmalloc` walks the list a second time to find the pointer that leads to the block. A pointer to a link is a block
here, or the head of the list, which is what `findLink` returns.
-/

/-- The walk to a member of the list stops at the block before it. -/
theorem findLink_spec {l rest : List Nat} {fuel p r : Nat} (hc : Chain m.next (m.next p) (l ++ best :: rest))
    (hnot : best ∉ l) (h : findLink m best fuel p = some r) : ∃ l₀, p :: l = l₀ ++ [r] ∧ m.next r = best := by
  induction fuel generalizing l p with
  | zero => cases h
  | succ fuel ih =>
      unfold findLink at h
      cases l with
      | nil =>
          have hbest : m.next p = best := hc.1
          rw [if_pos (Or.inr hbest)] at h
          cases h
          exact ⟨[], rfl, hbest⟩
      | cons c l =>
          obtain ⟨hpc, hc0, hl⟩ := hc
          rw [List.mem_cons, not_or] at hnot
          have hcb : c ≠ best := Ne.symm hnot.1
          rw [if_neg (by rw [hpc]; simp [hc0, hcb]), hpc] at h
          obtain ⟨l₀, hl₀, hr⟩ := ih hl hnot.2 h
          exact ⟨p :: l₀, by rw [hl₀]; rfl, hr⟩

/-- **The list after `relink`**: the blocks before `best`, then the chain of the replacement. Only link words
    of the former change. -/
theorem relink_spec {l rest t : List Nat} {repl : Nat} (hc : Chain s.mem.next s.freeList (l ++ best :: rest))
    (hnot : best ∉ l) (hnd : l.Nodup) (ht : Chain s.mem.next repl t) (hdisj : ∀ c ∈ l, c ∉ t)
    (h : s.relink best repl = some s') :
    ∃ m free, s' = { s with mem := m, freeList := free } ∧ Chain m.next free (l ++ t) ∧
      ∀ w, (∀ c ∈ l, w ≠ c + 16) → m w = s.mem w := by
  have hne : s.freeList ≠ 0 := by
    rw [Ne, hc.eq_zero_iff]
    simp
  unfold relink at h
  rw [if_neg hne] at h
  cases l with
  | nil =>
      rw [if_pos hc.1] at h
      cases h
      exact ⟨s.mem, repl, rfl, ht, fun w _ => rfl⟩
  | cons p l =>
      have hfirst : s.freeList = p := hc.1
      have hpb : p ≠ best := fun e => hnot (by simp [e])
      rw [if_neg (by rw [hfirst]; exact hpb)] at h
      obtain ⟨r, hr, hset⟩ := Option.bind_eq_some_iff.mp h
      rw [hfirst] at hr
      obtain ⟨l₀, hl₀, hnext⟩ := findLink_spec hc.2.2 (fun hm => hnot (List.mem_cons_of_mem p hm)) hr
      rw [if_pos hnext] at hset
      cases hset
      rw [hl₀] at hc hnd hdisj ⊢
      have hrl₀ : ∀ c ∈ l₀, c ≠ r := by
        rintro c hcl rfl
        exact (List.nodup_append.mp hnd).2.2 c hcl c (by simp) rfl
      refine ⟨_, _, rfl, ?_, fun w hw => Words.setNext_of_ne (hw r (by simp))⟩
      rw [List.append_assoc] at hc ⊢
      refine hc.replace (fun c hcl => Words.next_setNext_of_ne (hrl₀ c hcl)) Words.next_setNext ?_
      exact ht.congr fun c hct => Words.next_setNext_of_ne fun e => hdisj r (by simp) (e ▸ hct)

/-- The header of the block handed out. -/
def usedHeader (m : Words) (best : Nat) : Words :=
  ((m.setMagic best heapMagicUsed).setNext best 0).setChecksum best

theorem usedHeader_of_out {w : Nat} (h : w < best ∨ best + 32 ≤ w) : usedHeader m best w = m w := by
  unfold usedHeader
  rw [Words.setChecksum_of_ne (by omega), Words.setNext_of_ne (by omega), Words.setMagic_of_ne (by omega)]

theorem usedHeader_head :
    (usedHeader m best).magic best = heapMagicUsed ∧ (usedHeader m best).size best = m.size best := by
  have hword : usedHeader m best best = m.setMagic best heapMagicUsed best := by
    unfold usedHeader
    rw [Words.setChecksum_of_ne (by omega), Words.setNext_of_ne (by omega)]
  rw [Words.magic_congr hword, Words.size_congr hword]
  exact ⟨Words.magic_setMagic (by decide), Words.size_setMagic (by decide)⟩

/-- A header lies off every other header of the list. -/
def HdrOff (b : Nat) (l : List Nat) : Prop := ∀ c ∈ l, c + 32 ≤ b ∨ b + 32 ≤ c

theorem HdrOff.not_mem {b : Nat} {l : List Nat} (h : HdrOff b l) : b ∉ l := by
  intro hm
  have := h b hm
  omega

/-- A chain does not see a change inside a header off its own. -/
theorem chain_of_out {m m' : Words} {a b : Nat} {l : List Nat} (hc : Chain m.next a l) (hoff : HdrOff b l)
    (hm : ∀ w, w < b ∨ b + 32 ≤ w → m' w = m w) : Chain m'.next a l := by
  refine hc.congr fun c hcl => ?_
  have := hoff c hcl
  exact hm (c + 16) (by omega)

/-- **A block taken whole.** -/
theorem takeBlock_whole {l rest : List Nat} {ptr : Nat} (hc : Chain s.mem.next s.freeList (l ++ best :: rest))
    (hnd : (l ++ best :: rest).Nodup) (hoff : HdrOff best (l ++ rest)) (hsize : s.mem.size best < size + 48)
    (h : s.takeBlock best size = some (ptr, s')) :
    ptr = best + 32 ∧ ∃ m free, s' = { s with mem := m, freeList := free } ∧ Chain m.next free (l ++ rest) ∧
      m.magic best = heapMagicUsed ∧ m.size best = s.mem.size best ∧
      ∀ w, (w < best ∨ best + 32 ≤ w) → (∀ c ∈ l, w ≠ c + 16) → m w = s.mem w := by
  obtain ⟨hndl, hndr, hdisj⟩ := List.nodup_append.mp hnd
  have hbl : best ∉ l := fun hm => hoff.not_mem (List.mem_append_left _ hm)
  unfold takeBlock at h
  rw [if_neg (by unfold heapBlockHdrSize heapMinSize; omega)] at h
  obtain ⟨s₁, hs₁, hret⟩ := Option.bind_eq_some_iff.mp h
  obtain ⟨m, free, rfl, hchain, hframe⟩ := relink_spec hc hbl hndl (hc.drop).2.2
    (fun c hcl hcr => hdisj c hcl c (List.mem_cons_of_mem _ hcr) rfl) hs₁
  cases hret
  refine ⟨rfl, usedHeader m best, free, rfl, ?_, usedHeader_head.1, ?_, fun w hw hl => ?_⟩
  · exact chain_of_out hchain hoff fun w => usedHeader_of_out
  · rw [usedHeader_head.2]
    refine Words.size_congr (hframe best fun c hcl => ?_)
    have := hoff c (List.mem_append_left _ hcl)
    omega
  · rw [usedHeader_of_out hw, hframe w hl]

/-- **A block split.** The remainder takes its place on the list; the header of `best` still records the whole
    size. -/
theorem takeBlock_split {l rest : List Nat} {ptr split : Nat}
    (hc : Chain s.mem.next s.freeList (l ++ best :: rest)) (hnd : (l ++ best :: rest).Nodup)
    (hoff : HdrOff best (l ++ rest)) (hsize : size + 48 ≤ s.mem.size best) (hsplit : split = best + 32 + size)
    (hsplitOff : HdrOff split (l ++ best :: rest)) (h : s.takeBlock best size = some (ptr, s')) :
    ptr = best + 32 ∧ ∃ m free, s' = { s with mem := m, freeList := free } ∧
      Chain m.next free (l ++ split :: rest) ∧
      m.magic best = heapMagicUsed ∧ m.size best = s.mem.size best ∧
      m.magic split = heapMagicFree ∧ m.size split = s.mem.size best - size - 32 ∧
      ∀ w, (w < best ∨ best + 32 ≤ w) → (w < split ∨ split + 32 ≤ w) → (∀ c ∈ l, w ≠ c + 16) →
        m w = s.mem w := by
  have hbl : best ∉ l := fun hm => hoff.not_mem (List.mem_append_left _ hm)
  have hsl : split ∉ l := fun hm => hsplitOff.not_mem (List.mem_append_left _ hm)
  obtain ⟨hndl, hndr, hdisj⟩ := List.nodup_append.mp hnd
  have hsmall := s.mem.size_lt (b := best)
  unfold takeBlock at h
  rw [if_pos (by unfold heapBlockHdrSize heapMinSize; omega)] at h
  simp only [heapBlockHdrSize, ← hsplit] at h
  obtain ⟨s₁, h₁, hret⟩ := Option.bind_eq_some_iff.mp h
  -- the memory in which the header of the remainder is written, before the list is edited
  generalize hm₁ : (s.mem.newBlock split (s.mem.size best - size - 32) best).setNext split
    ((s.mem.newBlock split (s.mem.size best - size - 32) best).next best) = m₁ at h₁
  have hout : ∀ w, w < split ∨ split + 32 ≤ w → m₁ w = s.mem w := by
    intro w hw
    rw [← hm₁, Words.setNext_of_ne (by omega), Words.newBlock_of_out hw]
  have hnext : m₁.next split = s.mem.next best := by
    rw [← hm₁, Words.next_setNext]
    exact Words.newBlock_of_out (by omega)
  have hhead : m₁.magic split = heapMagicFree ∧ m₁.size split = s.mem.size best - size - 32 := by
    have hword : m₁ split = s.mem.newBlock split (s.mem.size best - size - 32) best split := by
      rw [← hm₁, Words.setNext_of_ne (by omega)]
    rw [Words.magic_congr hword, Words.size_congr hword, Words.newBlock_head.2, Nat.mod_eq_of_lt (by omega)]
    exact ⟨Words.newBlock_head.1, rfl⟩
  have hc₁ : Chain m₁.next s.freeList (l ++ best :: rest) := chain_of_out hc hsplitOff hout
  have ht : Chain m₁.next split (split :: rest) := by
    refine ⟨rfl, by omega, ?_⟩
    rw [hnext]
    exact chain_of_out hc.drop.2.2 (fun c hcr => hsplitOff c (by simp [hcr])) hout
  obtain ⟨m, free, rfl, hchain, hframe⟩ := relink_spec hc₁ hbl hndl ht (fun c hcl hcr => by
    rcases List.mem_cons.mp hcr with rfl | hcr
    · exact hsl hcl
    · exact hdisj c hcl c (List.mem_cons_of_mem _ hcr) rfl) h₁
  -- the words of the two headers keep what they have while the list is edited
  have hkeep : ∀ k, k = best ∨ k = split → ∀ o, o = 0 ∨ o = 16 → m (k + o) = m₁ (k + o) := by
    intro k hk o ho
    refine hframe (k + o) fun c hcl => ?_
    have h1 := hoff c (List.mem_append_left _ hcl)
    have h2 := hsplitOff c (List.mem_append_left _ hcl)
    omega
  have hbestNext : m.next best = s.mem.next best := by
    have h1 : m.next best = m₁.next best := hkeep best (Or.inl rfl) 16 (Or.inr rfl)
    rw [h1]
    exact hout (best + 16) (by omega)
  have hsplitNext : m.next split = s.mem.next best := by
    have h1 : m.next split = m₁.next split := hkeep split (Or.inr rfl) 16 (Or.inr rfl)
    rw [h1, hnext]
  -- so the link of the remainder is written a second time with the value it has
  have hagain : m.setNext split (m.next best) = m := by
    rw [hbestNext, ← hsplitNext]
    exact Function.update_eq_self (split + 16) m
  obtain ⟨rfl, rfl⟩ : best + 32 = ptr ∧ { s with mem := usedHeader m best, freeList := free } = s' := by
    simpa [hagain, usedHeader] using hret
  have hoffNew : HdrOff best (l ++ split :: rest) := by
    intro c hcl
    rcases List.mem_append.mp hcl with hcl | hcl
    · exact hoff c (List.mem_append_left _ hcl)
    · rcases List.mem_cons.mp hcl with rfl | hcl
      · omega
      · exact hoff c (List.mem_append_right _ hcl)
  have hsplitHead : usedHeader m best split = m₁ split := by
    rw [usedHeader_of_out (by omega)]
    exact hkeep split (Or.inr rfl) 0 (Or.inl rfl)
  have hbestSize : m.size best = s.mem.size best := by
    refine Words.size_congr ?_
    rw [← hout best (by omega)]
    exact hkeep best (Or.inl rfl) 0 (Or.inl rfl)
  refine ⟨rfl, usedHeader m best, free, rfl, ?_, usedHeader_head.1, usedHeader_head.2.trans hbestSize, ?_, ?_, ?_⟩
  · exact chain_of_out hchain hoffNew fun w => usedHeader_of_out
  · rw [Words.magic_congr hsplitHead, hhead.1]
  · rw [Words.size_congr hsplitHead, hhead.2]
  · intro w hw hws hl
    rw [usedHeader_of_out hw, hframe w hl]
    exact hout w hws

/-! ## What is left alone

Nothing but memory and the head of the free list is changed by taking a block.
-/

/-- Only memory and the head of the free list change. -/
theorem relink_keeps {repl : Nat} (h : s.relink best repl = some s') :
    ∃ m free, s' = { s with mem := m, freeList := free } := by
  unfold relink at h
  split at h
  · exact ⟨s.mem, s.freeList, (Option.some.inj h).symm⟩
  · split at h
    · exact ⟨s.mem, repl, (Option.some.inj h).symm⟩
    · obtain ⟨p, -, h⟩ := Option.bind_eq_some_iff.mp h
      split at h
      · exact ⟨_, _, (Option.some.inj h).symm⟩
      · exact ⟨_, _, (Option.some.inj h).symm⟩

theorem takeBlock_keeps {size ptr : Nat} (h : s.takeBlock best size = some (ptr, s')) :
    ∃ m free, s' = { s with mem := m, freeList := free } := by
  unfold takeBlock at h
  split at h
  · obtain ⟨s₁, h₁, h⟩ := Option.bind_eq_some_iff.mp h
    obtain ⟨m, free, rfl⟩ := relink_keeps h₁
    exact ⟨_, _, (Prod.mk.inj (Option.some.inj h)).2.symm⟩
  · obtain ⟨s₁, h₁, h⟩ := Option.bind_eq_some_iff.mp h
    obtain ⟨m, free, rfl⟩ := relink_keeps h₁
    exact ⟨_, _, (Prod.mk.inj (Option.some.inj h)).2.symm⟩

theorem kfree_keeps {ptr : Nat} (h : s.kfree ptr = some s') :
    ∃ m free, s' = { s with mem := m, freeList := free } := by
  simp only [kfree] at h
  split at h
  · exact ⟨s.mem, s.freeList, (Option.some.inj h).symm⟩
  · split at h
    · cases h
    · split at h
      · cases h
      · exact ⟨_, _, (Option.some.inj h).symm⟩

/-! ## Growing

The header of the new block lies in the first page that was mapped; the pages read as zero, and the block is put in
front of the list.
-/

theorem mapPages_spec {n : Nat} (htop : s.heapEnd + s.avail * pageSize < 2 ^ 64) {ok : Bool}
    (h : mapPages n s = (ok, s')) :
    ∃ k, k ≤ s.avail ∧ k ≤ n ∧ s' = { s with heapEnd := s.heapEnd + k * pageSize, avail := s.avail - k } ∧
      (ok = true → k = n) := by
  induction n generalizing s with
  | zero =>
      cases h
      exact ⟨0, Nat.zero_le _, Nat.le_refl _, by simp, fun _ => rfl⟩
  | succ n ih =>
      unfold mapPages at h
      by_cases h0 : s.avail = 0
      · rw [if_pos h0] at h
        cases h
        exact ⟨0, Nat.zero_le _, Nat.zero_le _, by simp, by simp⟩
      · rw [if_neg h0] at h
        have hwrap : (s.heapEnd + pageSize) % 2 ^ 64 = s.heapEnd + pageSize := by
          refine Nat.mod_eq_of_lt ?_
          unfold pageSize at htop ⊢
          omega
        rw [hwrap] at h
        obtain ⟨k, hk, hkn, rfl, hok⟩ := ih (by simp only; unfold pageSize at htop ⊢; omega) h
        refine ⟨k + 1, by simp only at hk; omega, by omega, ?_, fun hb => by rw [hok hb]⟩
        simp only [Heap.mk.injEq, true_and]
        unfold pageSize
        omega

/-- **`heap_grow`**: at the end of the heap some pages appear, and on success a free block over all of them. -/
theorem growBy_spec {n : Nat} (htop : s.heapEnd + s.avail * pageSize < 2 ^ 64) {ok : Bool}
    (h : s.growBy n = some (ok, s')) :
    ∃ k, k ≤ s.avail ∧ k ≤ n ∧ s'.heapStart = s.heapStart ∧ s'.heapEnd = s.heapEnd + k * pageSize ∧
      s'.avail = s.avail - k ∧ s'.caches = s.caches ∧ s'.slabVirt = s.slabVirt ∧
      (∀ w < s.heapEnd, s'.mem w = s.mem w) ∧ (ok = false → s'.freeList = s.freeList) ∧
      (ok = true → 0 < k ∧ k = n ∧ s'.freeList = s.heapEnd ∧ s'.mem.next s.heapEnd = s.freeList ∧
        s'.mem.magic s.heapEnd = heapMagicFree ∧ s'.mem.size s.heapEnd = (k * pageSize - 32) % 2 ^ 32) := by
  unfold growBy at h
  obtain ⟨b, t, hbt⟩ : ∃ b t, mapPages n s = (b, t) := ⟨_, _, rfl⟩
  obtain ⟨k, hk, hle, rfl, hkn⟩ := mapPages_spec htop hbt
  simp only [hbt] at h
  cases b with
  | false =>
      simp only [if_true, Option.some.injEq, Prod.mk.injEq] at h
      obtain ⟨rfl, rfl⟩ := h
      exact ⟨k, hk, hle, rfl, rfl, rfl, rfl, rfl, fun w hw => Words.mapZeroed_of_out (Or.inl hw), fun _ => rfl, by simp⟩
  | true =>
      obtain rfl := hkn rfl
      by_cases h0 : k = 0
      · simp [h0] at h
      · simp only [Bool.true_eq_false, if_false, h0, Option.some.injEq, Prod.mk.injEq] at h
        obtain ⟨rfl, rfl⟩ := h
        have hbytes : s.heapEnd + k * pageSize - s.heapEnd - heapBlockHdrSize = k * pageSize - 32 := by
          unfold heapBlockHdrSize
          omega
        refine ⟨k, hk, hle, rfl, rfl, rfl, rfl, rfl, fun w hw => ?_, by simp,
          fun _ => ⟨Nat.pos_of_ne_zero h0, rfl, rfl, Words.next_setNext, ?_, ?_⟩⟩
        · refine (Words.setNext_of_ne (by omega)).trans ((Words.newBlock_of_out (Or.inl hw)).trans ?_)
          exact Words.mapZeroed_of_out (Or.inl hw)
        · rw [Words.magic_congr (Words.setNext_of_ne (by omega)), Words.newBlock_head.1]
        · rw [Words.size_congr (Words.setNext_of_ne (by omega)), Words.newBlock_head.2]
          exact congrArg (· % 2 ^ 32) hbytes

end Heap

end MyUnix.Mm
