import LispDos.Verification.Memory.PageRuns

/-! # The storage of the bitmap

`pmm_init` takes the bitmap from the first usable region that can hold it. Whether the
allocator can give that storage away depends on the size of memory alone. -/

namespace LispDos.Memory

/-- The first address after the entry. -/
def MemmapEntry.top (e : MemmapEntry) : ℕ := e.base.toNat + e.length.toNat

/-- The address lies in the entry. -/
def MemmapEntry.Covers (e : MemmapEntry) (a : ℕ) : Prop := e.base.toNat ≤ a ∧ a < e.top

/-- What the Limine protocol promises about the usable entries of a memory map, and a
region that can hold the bitmap. -/
structure ValidMap (entries : List MemmapEntry) : Prop where
  aligned : ∀ e ∈ entries, e.type = .usable → 4096 ∣ e.base.toNat ∧ 4096 ∣ e.length.toNat
  above : ∀ e ∈ entries, e.type = .usable → 4096 ≤ e.base.toNat
  inside : ∀ e ∈ entries, e.type = .usable → e.top < 2 ^ 64
  apart : entries.Pairwise fun e f =>
    e.type = .usable → f.type = .usable → ∀ a, ¬ (e.Covers a ∧ f.Covers a)
  large : ∃ e ∈ entries, e.type = .usable ∧
    bitmapSize ((highestAddress entries).toNat / 4096) ≤ e.length.toNat

/-- The last usable address is a multiple of 128 MiB. -/
def TopAligned (entries : List MemmapEntry) : Prop :=
  ∃ e ∈ entries, e.type = .usable ∧ 2 ^ 27 ∣ e.top ∧
    ∀ f ∈ entries, f.type = .usable → f.top ≤ e.top

/-- Page `i` holds a byte of the bitmap. -/
def Boot.Stores (boot : Boot) (i : ℕ) : Prop :=
  boot.bitmapBase.toNat < (i + 1) * 4096 ∧ i * 4096 < boot.bitmapBase.toNat + boot.bitmapBytes

instance (boot : Boot) : DecidablePred boot.Stores := fun i =>
  inferInstanceAs (Decidable (boot.bitmapBase.toNat < (i + 1) * 4096 ∧
    i * 4096 < boot.bitmapBase.toNat + boot.bitmapBytes))

/-- The storage has a bit for every page, its pages are marked used, and no sequence of
allocations obtains one of them. -/
structure StorageSafe (boot : Boot) : Prop where
  room : boot.pmm.highestPage ≤ 8 * boot.bitmapBytes
  marked : ∀ i, boot.Stores i → bitmapTest boot.pmm.bitmap i = true
  kept : ∀ requests : List Request, (∀ page, Request.free page ∉ requests) →
    ∀ (n : ℕ) (request : Request), requests[n]? = some request →
      ∀ x ∈ request.obtains ((Holding.start boot.pmm).run (requests.take n)).pmm, ¬ boot.Stores x

/-! ## Allocations only -/

theorem AllocCase.obtains_clear {p : Pmm} {n : ℕ} {r : Word × Pmm} (h : AllocCase p n r) :
    ∀ x ∈ handedOut r.1 n, bitmapTest p.bitmap x = false := by
  intro x hx
  cases h with
  | failed => simp [handedOut] at hx
  | taken i p' hn takes =>
      have hlt : i < 2 ^ 52 := takes.lt_pages (Finset.mem_Ico.mpr ⟨le_rfl, by omega⟩)
      simp only [handedOut, pageAddr_div hlt] at hx
      split at hx
      · simp at hx
      · exact takes.test_eq_false hx

/-- An allocation clears no bit. -/
theorem AllocCase.grows {p : Pmm} {n : ℕ} {r : Word × Pmm} (h : AllocCase p n r) {i : ℕ}
    (hi : bitmapTest p.bitmap i = true) : bitmapTest r.2.bitmap i = true := by
  cases h with
  | failed => exact hi
  | taken j p' hn takes => rw [takes.bits, hi, Bool.or_true]

theorem Holding.perform_alloc {h : Holding} (request : Request)
    (hcur : h.pmm.lastAllocatedIndex ≤ h.pmm.highestPage) (halloc : ∀ page, request ≠ .free page) :
    ∃ n r, AllocCase h.pmm n r ∧ request.obtains h.pmm = handedOut r.1 n ∧
      (h.perform request).pmm = r.2 := by
  cases request with
  | page => exact ⟨1, _, pmmAllocPage_cases hcur, rfl, rfl⟩
  | pages count => exact ⟨count.toNat, _, pmmAllocPages_cases hcur count, rfl, rfl⟩
  | free page => exact (halloc page rfl).elim

/-- Used pages are never obtained by a sequence of allocations. -/
theorem used_pages_kept (requests : List Request) (h : Holding)
    (hcur : h.pmm.lastAllocatedIndex ≤ h.pmm.highestPage)
    (halloc : ∀ page, Request.free page ∉ requests) {i : ℕ}
    (hset : bitmapTest h.pmm.bitmap i = true) (n : ℕ) (request : Request)
    (hget : requests[n]? = some request) : i ∉ request.obtains (h.run (requests.take n)).pmm := by
  induction requests generalizing h n with
  | nil => simp at hget
  | cons r requests ih =>
      obtain ⟨m, res, hcase, hobtains, hpmm⟩ := Holding.perform_alloc r hcur
        (fun page hr => halloc page (by simp [hr]))
      cases n with
      | zero =>
          obtain rfl := Option.some_inj.mp hget
          intro hi
          have hclear := hcase.obtains_clear i (hobtains ▸ hi)
          rw [hset] at hclear
          cases hclear
      | succ n =>
          have hcur' := hcase.cursor hcur
          have hset' := hcase.grows hset
          rw [← hpmm] at hcur' hset'
          have htail : ∀ page, Request.free page ∉ requests :=
            fun page hmem => halloc page (List.mem_cons_of_mem _ hmem)
          exact ih (h.perform r) hcur' htail hset' n hget

/-! ## The highest address -/

theorem MemmapEntry.toNat_top {e : MemmapEntry} (h : e.top < 2 ^ 64) :
    (e.base + e.length).toNat = e.top := by
  rw [BitVec.toNat_add]
  exact Nat.mod_eq_of_lt h

/-- The scan keeps the larger of its start and the largest end. -/
theorem foldl_raiseHighest (entries : List MemmapEntry) (start : Word)
    (hin : ∀ e ∈ entries, e.type = .usable → e.top < 2 ^ 64) :
    start.toNat ≤ (entries.foldl raiseHighest start).toNat ∧
      (∀ e ∈ entries, e.type = .usable → e.top ≤ (entries.foldl raiseHighest start).toNat) ∧
      (entries.foldl raiseHighest start = start ∨
        ∃ e ∈ entries, e.type = .usable ∧ (entries.foldl raiseHighest start).toNat = e.top) := by
  induction entries generalizing start with
  | nil => simp
  | cons e entries ih =>
      obtain ⟨hstart, hall, hfrom⟩ := ih (raiseHighest start e)
        (fun f hf => hin f (List.mem_cons_of_mem _ hf))
      rw [List.foldl_cons]
      generalize entries.foldl raiseHighest (raiseHighest start e) = r at hstart hall hfrom
      have hraise : start.toNat ≤ (raiseHighest start e).toNat ∧
          (e.type = .usable → e.top ≤ (raiseHighest start e).toNat) ∧
          (raiseHighest start e = start ∨
            (e.type = .usable ∧ (raiseHighest start e).toNat = e.top)) := by
        simp only [raiseHighest]
        by_cases hu : e.type = .usable
        · have htop := MemmapEntry.toNat_top (hin e (by simp) hu)
          rw [if_pos hu]
          by_cases hlt : start < e.base + e.length
          · have hle := BitVec.le_def.mp (BitVec.le_of_lt hlt)
            rw [htop] at hle
            rw [if_pos hlt, htop]
            exact ⟨hle, fun _ => le_rfl, .inr ⟨hu, rfl⟩⟩
          · have hle := BitVec.le_def.mp (BitVec.not_lt.mp hlt)
            rw [htop] at hle
            rw [if_neg hlt]
            exact ⟨le_rfl, fun _ => hle, .inl rfl⟩
        · rw [if_neg hu]
          exact ⟨le_rfl, fun h => absurd h hu, .inl rfl⟩
      obtain ⟨h₁, h₂, h₃⟩ := hraise
      refine ⟨h₁.trans hstart, ?_, ?_⟩
      · intro f hf hu
        rcases List.mem_cons.mp hf with rfl | hf
        · exact (h₂ hu).trans hstart
        · exact hall f hf hu
      · rcases hfrom with rfl | ⟨f, hf, hu, hr⟩
        · rcases h₃ with h₃ | ⟨hu, hr⟩
          · exact .inl h₃
          · exact .inr ⟨e, by simp, hu, hr⟩
        · exact .inr ⟨f, List.mem_cons_of_mem _ hf, hu, hr⟩

/-! ## The place of the bitmap -/

/-- The entry after it has given up its first bytes. -/
def MemmapEntry.shift (e : MemmapEntry) (size : ℕ) : MemmapEntry :=
  { e with
    base := e.base + BitVec.ofNat 64 size
    length := e.length - BitVec.ofNat 64 size }

theorem placeBitmap_some {size : ℕ} (entries : List MemmapEntry)
    (h : ∃ e ∈ entries, e.type = .usable ∧ size ≤ e.length.toNat) :
    ∃ before e after, entries = before ++ e :: after ∧ e.type = .usable ∧
      size ≤ e.length.toNat ∧
      placeBitmap size entries = some (e.base, before ++ e.shift size :: after) := by
  induction entries with
  | nil => simp at h
  | cons f entries ih =>
      by_cases hf : f.type = .usable ∧ size ≤ f.length.toNat
      · exact ⟨[], f, entries, rfl, hf.1, hf.2, by simp [placeBitmap, hf, MemmapEntry.shift]⟩
      · have htail : ∃ e ∈ entries, e.type = .usable ∧ size ≤ e.length.toNat := by
          obtain ⟨e, he, hu⟩ := h
          rcases List.mem_cons.mp he with rfl | he
          · exact (hf hu).elim
          · exact ⟨e, he, hu⟩
        obtain ⟨before, e, after, rfl, hu, hsize, hplace⟩ := ih htail
        refine ⟨f :: before, e, after, rfl, hu, hsize, ?_⟩
        simp [placeBitmap, hf, hplace]

theorem MemmapEntry.base_shift {e : MemmapEntry} {size : ℕ} (htop : e.top < 2 ^ 64)
    (hsize : size ≤ e.length.toNat) : (e.shift size).base.toNat = e.base.toNat + size := by
  have hlen := e.length.isLt
  simp only [MemmapEntry.shift, MemmapEntry.top, BitVec.toNat_add, BitVec.toNat_ofNat] at *
  omega

theorem MemmapEntry.length_shift {e : MemmapEntry} {size : ℕ} (hsize : size ≤ e.length.toNat) :
    (e.shift size).length.toNat = e.length.toNat - size := by
  have hlen := e.length.isLt
  have hmod : (BitVec.ofNat 64 size).toNat = size := by
    rw [BitVec.toNat_ofNat]
    exact Nat.mod_eq_of_lt (by omega)
  simp only [MemmapEntry.shift]
  rw [BitVec.toNat_sub_of_le, hmod]
  rw [BitVec.le_def, hmod]
  exact hsize

/-! ## The pages marked free -/

/-- The pages whose bits the loop over the entry clears. -/
def MemmapEntry.Frees (e : MemmapEntry) (i : ℕ) : Prop :=
  e.type = .usable ∧ e.base.toNat / 4096 ≤ i ∧
    i < e.base.toNat / 4096 + (e.length.toNat + 4095) / 4096

theorem freePages_bits (e : MemmapEntry) (htop : e.top ≤ 2 ^ 64) (n : ℕ)
    (hn : n ≤ (e.length.toNat + 4095) / 4096) (s : Bitmap × Word) (i : ℕ) :
    bitmapTest ((List.range n).foldl (fun s k =>
      (bitmapClear s.1 ((e.base + BitVec.ofNat 64 (k * 4096)).toNat / 4096), s.2 + 4096#64)) s).1 i =
        true ↔
      bitmapTest s.1 i = true ∧ ¬ (e.base.toNat / 4096 ≤ i ∧ i < e.base.toNat / 4096 + n) := by
  induction n with
  | zero => simp
  | succ n ih =>
      have hpage : (e.base + BitVec.ofNat 64 (n * 4096)).toNat / 4096 = e.base.toNat / 4096 + n := by
        have hbound : e.base.toNat + n * 4096 < 2 ^ 64 := by
          simp only [MemmapEntry.top] at htop
          omega
        rw [BitVec.toNat_add, BitVec.toNat_ofNat, Nat.mod_eq_of_lt (a := n * 4096) (by omega),
          Nat.mod_eq_of_lt hbound, Nat.add_mul_div_right _ _ (by decide)]
      rw [List.range_succ, List.foldl_append, List.foldl_cons, List.foldl_nil, bitmapTest_clear,
        hpage, Bool.and_eq_true, ih (by omega)]
      simp only [Bool.not_eq_true', decide_eq_false_iff_not]
      constructor
      · rintro ⟨hne, hset, hnot⟩
        exact ⟨hset, by omega⟩
      · rintro ⟨hset, hnot⟩
        exact ⟨by omega, hset, by omega⟩

theorem foldl_freeEntry_bits (entries : List MemmapEntry)
    (htop : ∀ e ∈ entries, e.type = .usable → e.top ≤ 2 ^ 64) (s : Bitmap × Word) (i : ℕ) :
    bitmapTest (entries.foldl freeEntry s).1 i = true ↔
      bitmapTest s.1 i = true ∧ ∀ e ∈ entries, ¬ e.Frees i := by
  induction entries generalizing s with
  | nil => simp
  | cons e entries ih =>
      rw [List.foldl_cons, ih (fun f hf => htop f (List.mem_cons_of_mem _ hf)),
        List.forall_mem_cons, ← and_assoc]
      refine and_congr_left ?_
      intro _
      simp only [freeEntry]
      by_cases hu : e.type = .usable
      · rw [if_pos hu, freePages_bits e (htop e (by simp) hu) _ le_rfl]
        simp [MemmapEntry.Frees, hu]
      · rw [if_neg hu]
        simp [MemmapEntry.Frees, hu]

/-! ## After initialisation -/

section Init

variable {entries before after : List MemmapEntry} {e : MemmapEntry}

/-- The entries other than the one that holds the bitmap share no address with it. -/
theorem ValidMap.not_covers (hv : ValidMap entries) (heq : entries = before ++ e :: after)
    (hu : e.type = .usable) {f : MemmapEntry} (hf : f ∈ before ∨ f ∈ after)
    (hfu : f.type = .usable) {a : ℕ} (ha : e.Covers a) : ¬ f.Covers a := by
  intro hfa
  have hpair := hv.apart
  rw [heq, List.pairwise_append, List.pairwise_cons] at hpair
  obtain ⟨_, ⟨hafter, _⟩, hbefore⟩ := hpair
  rcases hf with hf | hf
  · exact hbefore f hf e (by simp) hfu hu a ⟨hfa, ha⟩
  · exact hafter f hf hu hfu a ⟨ha, hfa⟩

theorem ValidMap.covers_of_frees (hv : ValidMap entries) {f : MemmapEntry} (hf : f ∈ entries)
    {i : ℕ} (hfree : f.Frees i) : f.Covers (i * 4096) := by
  obtain ⟨hu, hle, hlt⟩ := hfree
  obtain ⟨⟨m, hm⟩, ⟨n, hn⟩⟩ := hv.aligned f hf hu
  simp only [MemmapEntry.Covers, MemmapEntry.top]
  omega

/-- The result of `pmm_init` on a valid map. -/
structure Initialised (entries : List MemmapEntry) (e : MemmapEntry) (boot : Boot) : Prop where
  mem : e ∈ entries
  usable : e.type = .usable
  fits : boot.bitmapBytes ≤ e.length.toNat
  base : boot.bitmapBase = e.base
  highest : boot.pmm.highestPage = (highestAddress entries).toNat / 4096
  bytes : boot.bitmapBytes = bitmapSize boot.pmm.highestPage
  cursor : boot.pmm.lastAllocatedIndex = 0
  chosen : ∀ i, (e.shift boot.bitmapBytes).Frees i → bitmapTest boot.pmm.bitmap i = false
  others : ∀ i, i < 8 * boot.bitmapBytes → e.Covers (i * 4096) →
    ¬ (e.shift boot.bitmapBytes).Frees i → bitmapTest boot.pmm.bitmap i = true

theorem pmmInit_some (hv : ValidMap entries) (stale : Bitmap) :
    ∃ boot e, pmmInit stale entries = some boot ∧ Initialised entries e boot := by
  obtain ⟨before, e, after, heq, hu, hsize, hplace⟩ := placeBitmap_some entries hv.large
  have hmem : e ∈ entries := by simp [heq]
  have htop := hv.inside e hmem hu
  have hbase := MemmapEntry.base_shift htop hsize
  have hlength := MemmapEntry.length_shift hsize
  generalize hs : bitmapSize ((highestAddress entries).toNat / 4096) = size at *
  have hin : ∀ f ∈ before ++ e.shift size :: after, f.type = .usable →
      4096 ≤ f.base.toNat ∧ f.top < 2 ^ 64 := by
    intro f hf hfu
    have habove := hv.above e hmem hu
    by_cases hfe : f = e.shift size
    · subst f
      simp only [MemmapEntry.top] at *
      omega
    · have hfm : f ∈ entries := by
        rw [heq]
        simp only [List.mem_append, List.mem_cons, hfe, false_or] at hf ⊢
        tauto
      exact ⟨hv.above f hfm hfu, hv.inside f hfm hfu⟩
  have hends : ¬ ∃ f ∈ before ++ e.shift size :: after,
      f.type = .usable ∧ 2 ^ 64 - 4096 < f.length.toNat := by
    rintro ⟨f, hf, hfu, hlong⟩
    have := hin f hf hfu
    simp only [MemmapEntry.top] at this
    omega
  have hbits := foldl_freeEntry_bits (before ++ e.shift size :: after)
    (fun f hf hfu => (hin f hf hfu).2.le) (fun i => if i < size then 0xFF#8 else stale i, 0#64)
  refine ⟨markMemory stale (highestAddress entries) e.base (before ++ e.shift size :: after), e,
    ?_, ?_⟩
  · simp only [pmmInit, hs, hplace, Option.bind_some, if_neg hends]
  · refine ⟨hmem, hu, ?_, rfl, rfl, rfl, rfl, ?_, ?_⟩ <;> simp only [markMemory, hs]
    · exact hsize
    · intro i hfrees
      rw [← Bool.not_eq_true, hbits]
      exact fun h => h.2 _ (by simp) hfrees
    · intro i hi hcovers hfrees
      rw [hbits]
      refine ⟨?_, ?_⟩
      · have hbyte : i / 8 < size := by omega
        have hbit : i % 8 < 8 := Nat.mod_lt _ (by decide)
        have hones : 0xFF#8 = BitVec.allOnes 8 := by decide
        rw [bitmapTest_eq]
        simp only [hbyte, if_true]
        rw [hones, BitVec.getLsbD_allOnes]
        exact decide_eq_true hbit
      · intro f hf hfree
        have hfmem : f ∈ before ∨ f ∈ after := by
          rcases List.mem_append.mp hf with hf | hf
          · exact .inl hf
          · rcases List.mem_cons.mp hf with rfl | hf
            · exact (hfrees hfree).elim
            · exact .inr hf
        have hfin : f ∈ entries := by
          rw [heq]
          simp only [List.mem_append, List.mem_cons]
          tauto
        exact hv.not_covers heq hu hfmem hfree.1 hcovers (hv.covers_of_frees hfin hfree)

/-! ## When the storage is safe -/

theorem ValidMap.highest (hv : ValidMap entries) (hmem : e ∈ entries) (hu : e.type = .usable) :
    e.top ≤ (highestAddress entries).toNat ∧
      ∃ f ∈ entries, f.type = .usable ∧ (highestAddress entries).toNat = f.top := by
  obtain ⟨_, hall, hfrom⟩ := foldl_raiseHighest entries 0#64 hv.inside
  have htop := hall e hmem hu
  refine ⟨htop, hfrom.resolve_left ?_⟩
  intro hz
  have habove := hv.above e hmem hu
  rw [hz] at htop
  simp only [MemmapEntry.top] at htop
  simp at htop
  omega

theorem topAligned_iff (hv : ValidMap entries) (hmem : e ∈ entries) (hu : e.type = .usable) :
    TopAligned entries ↔ 32768 ∣ (highestAddress entries).toNat / 4096 := by
  obtain ⟨_, f, hf, hfu, hfrom⟩ := hv.highest hmem hu
  have hall := fun g hg hgu => (hv.highest (e := g) hg hgu).1
  obtain ⟨⟨m, hm⟩, ⟨n, hn⟩⟩ := hv.aligned f hf hfu
  have htop : f.top = 4096 * (m + n) := by
    rw [MemmapEntry.top, hm, hn, Nat.mul_add]
  constructor
  · rintro ⟨g, hg, hgu, ⟨k, hk⟩, hmax⟩
    have h₁ := hall g hg hgu
    have h₂ := hmax f hf hfu
    exact ⟨k, by omega⟩
  · rintro ⟨k, hk⟩
    refine ⟨f, hf, hfu, ⟨k, by omega⟩, ?_⟩
    intro g hg hgu
    rw [← hfrom]
    exact hall g hg hgu

theorem Initialised.storageSafe_iff {boot : Boot} (h : Initialised entries e boot)
    (hv : ValidMap entries) : StorageSafe boot ↔ 32768 ∣ boot.pmm.highestPage := by
  have htop := hv.inside e h.mem h.usable
  have hbase := MemmapEntry.base_shift htop h.fits
  have hlength := MemmapEntry.length_shift h.fits
  obtain ⟨⟨m, hm⟩, ⟨n, hn⟩⟩ := hv.aligned e h.mem h.usable
  have hbytes := h.bytes
  have hfits := h.fits
  constructor
  · intro hsafe
    have hroom := hsafe.room
    -- a partial last page of the storage is the first page of the shifted region
    have hwhole : 4096 ∣ boot.bitmapBytes := by
      by_contra hpart
      have hfree : (e.shift boot.bitmapBytes).Frees (m + boot.bitmapBytes / 4096) :=
        ⟨h.usable, by omega, by omega⟩
      have hstores : boot.Stores (m + boot.bitmapBytes / 4096) := by
        rw [Boot.Stores, h.base]
        omega
      have hset := hsafe.marked _ hstores
      rw [h.chosen _ hfree] at hset
      cases hset
    simp only [bitmapSize] at hbytes
    split at hbytes
    · rw [hbytes] at hwhole
      exact absurd hwhole (by decide)
    · obtain ⟨k, hk⟩ := hwhole
      exact ⟨k, by omega⟩
  · rintro ⟨k, hk⟩
    have hhigh := (hv.highest h.mem h.usable).1
    have habove := hv.above e h.mem h.usable
    have heq := h.highest
    simp only [MemmapEntry.top] at hhigh
    simp only [bitmapSize] at hbytes
    rw [if_neg (by omega)] at hbytes
    have hmarked : ∀ i, boot.Stores i → bitmapTest boot.pmm.bitmap i = true := by
      intro i hi
      rw [Boot.Stores, h.base] at hi
      apply h.others i (by omega)
      · rw [MemmapEntry.Covers, MemmapEntry.top]
        omega
      · rintro ⟨_, hle, _⟩
        omega
    refine ⟨by omega, hmarked, ?_⟩
    intro requests halloc j request hget x hx hstores
    exact used_pages_kept requests (.start boot.pmm) (by simp [Holding.start, h.cursor]) halloc
      (hmarked x hstores) j request hget hx

/-- After `pmm_init` the bitmap cannot be given away if and only if the usable memory
ends at a multiple of 128 MiB. -/
theorem bitmap_storage_safe_iff (hv : ValidMap entries) (stale : Bitmap) :
    ∃ boot, pmmInit stale entries = some boot ∧ (StorageSafe boot ↔ TopAligned entries) := by
  obtain ⟨boot, e, hinit, h⟩ := pmmInit_some hv stale
  refine ⟨boot, hinit, ?_⟩
  rw [h.storageSafe_iff hv, topAligned_iff hv h.mem h.usable, h.highest]

end Init

/-- One usable page after the first one. -/
def onePageMap : List MemmapEntry := [⟨0x1000#64, 0x1000#64, .usable⟩]

theorem onePageMap_valid : ValidMap onePageMap where
  aligned := by decide
  above := by decide
  inside := by decide
  apart := List.pairwise_singleton _ _
  large := by decide

/-- The first allocation returns the page that holds the bitmap. -/
theorem bitmap_given_away : ValidMap onePageMap ∧
    ∃ boot, pmmInit (fun _ => 0#8) onePageMap = some boot ∧ boot.Stores 1 ∧
      bitmapTest boot.pmm.bitmap 1 = false ∧ (pmmAllocPage boot.pmm).1 = pageAddr 1 ∧
      ¬ StorageSafe boot := by
  refine ⟨onePageMap_valid, _, rfl, by decide, by decide, by decide, ?_⟩
  intro hsafe
  exact absurd (hsafe.marked 1 (by decide)) (by decide)

/-- A map whose usable memory ends at 128 MiB. -/
def alignedMap : List MemmapEntry := [⟨0x1000#64, 0x7FFF000#64, .usable⟩]

theorem bitmap_storage_safe_iff_alignedMap :
    ∃ boot, pmmInit (fun _ => 0#8) alignedMap = some boot ∧ StorageSafe boot := by
  have hv : ValidMap alignedMap :=
    ⟨by decide, by decide, by decide, List.pairwise_singleton _ _, by decide⟩
  obtain ⟨boot, hinit, hiff⟩ := bitmap_storage_safe_iff hv (fun _ => 0#8)
  exact ⟨boot, hinit, hiff.mpr ⟨_, List.mem_singleton.mpr rfl, rfl, by decide, by decide⟩⟩

end LispDos.Memory
