import LispDos.Foundation.Ownership
import LispDos.Verification.Memory.Pages

/-! # Who owns which page

A run of the allocator is a sequence of requests. Beside the allocator it keeps the
pages that each successful request obtained and that have not been freed since. -/

namespace LispDos.Memory

open Foundation

/-- A call of the allocator. -/
inductive Request where
  | page
  | pages (count : Word)
  | free (page : Word)

/-- The pages behind the address that an allocation of `n` pages returned. -/
def handedOut (address : Word) (n : ℕ) : Finset ℕ :=
  if address = 0#64 then ∅ else Finset.Ico (address.toNat / 4096) (address.toNat / 4096 + n)

/-- The pages a request obtains. -/
def Request.obtains (p : Pmm) : Request → Finset ℕ
  | .page => handedOut (pmmAllocPage p).1 1
  | .pages count => handedOut (pmmAllocPages p count).1 count.toNat
  | .free _ => ∅

/-- The allocator, the pages owned through each request, and all pages ever obtained. -/
structure Holding where
  pmm : Pmm
  blocks : List (Finset ℕ)
  given : Finset ℕ

def Holding.receive (h : Holding) (p : Pmm) (pages : Finset ℕ) : Holding :=
  { pmm := p, blocks := pages :: h.blocks, given := h.given ∪ pages }

/-- One request. A failed allocation obtains an empty block. -/
def Holding.perform (h : Holding) (request : Request) : Holding :=
  match request with
  | .page => h.receive (pmmAllocPage h.pmm).2 (request.obtains h.pmm)
  | .pages count => h.receive (pmmAllocPages h.pmm count).2 (request.obtains h.pmm)
  | .free page =>
      { h with
        pmm := pmmFreePage h.pmm page
        blocks := release (page.toNat / 4096) h.blocks }

def Holding.run (h : Holding) (requests : List Request) : Holding :=
  requests.foldl Holding.perform h

/-- Nothing has been obtained yet. -/
def Holding.start (p : Pmm) : Holding := ⟨p, [], ∅⟩

/-- Only pages obtained earlier are freed, in any order and any number of times. -/
def Legal : Holding → List Request → Prop
  | _, [] => True
  | h, request :: requests =>
      (∀ page, request = .free page → ∃ x ∈ h.given, page = pageAddr x) ∧
        Legal (h.perform request) requests

/-- The bitmap and the counter account for the initial pages and the owned ones. -/
structure Accounted (p₀ : Pmm) (h : Holding) : Prop where
  highest : h.pmm.highestPage = p₀.highestPage
  cursor : h.pmm.lastAllocatedIndex ≤ h.pmm.highestPage
  disjoint : h.blocks.Pairwise Disjoint
  below : ∀ i, Owned h.blocks i → i < h.pmm.highestPage
  bits : ∀ i, bitmapTest h.pmm.bitmap i = true ↔ bitmapTest p₀.bitmap i = true ∨ Owned h.blocks i
  counter : h.pmm.freeMemory.toNat = 4096 * (clearPages h.pmm.bitmap h.pmm.highestPage).card

/-- The initial pages were never obtained. -/
def Outside (p₀ : Pmm) (h : Holding) : Prop :=
  ∀ x ∈ h.given, x < p₀.highestPage ∧ bitmapTest p₀.bitmap x = false

variable {p₀ p' : Pmm} {h : Holding}

theorem card_clearPages_le (bitmap : Bitmap) (n : ℕ) : (clearPages bitmap n).card ≤ n := by
  calc (clearPages bitmap n).card ≤ (Finset.range n).card := Finset.card_filter_le _ _
    _ = n := Finset.card_range n

/-! ## Allocations -/

/-- Taking pages lowers the counter by their size. -/
theorem Takes.counter {p : Pmm} {S : Finset ℕ} (takes : Takes p p' S)
    (hcount : p.freeMemory.toNat = 4096 * (clearPages p.bitmap p.highestPage).card) :
    p'.freeMemory.toNat = 4096 * (clearPages p'.bitmap p'.highestPage).card := by
  have hcard := card_clearPages_take takes.bits takes.clear
  have hle := card_clearPages_le p.bitmap p.highestPage
  have hlt := p.highest_lt
  have hsize : (4096#64 * BitVec.ofNat 64 S.card).toNat = 4096 * S.card := by
    rw [BitVec.toNat_mul, BitVec.toNat_ofNat, BitVec.toNat_ofNat]
    omega
  rw [takes.free, takes.highest, BitVec.toNat_sub_of_le, hsize, hcount]
  · omega
  · rw [BitVec.le_def, hsize, hcount]
    omega

theorem handedOut_pageAddr {i n : ℕ} (hpos : 0 < i) (hlt : i < 2 ^ 52) :
    handedOut (pageAddr i) n = Finset.Ico i (i + n) := by
  have hne : pageAddr i ≠ 0#64 := by
    intro hz
    have := congrArg BitVec.toNat hz
    rw [pageAddr_toNat hlt] at this
    simp at this
    omega
  rw [handedOut, if_neg hne, pageAddr_div hlt]

/-- What an allocation obtains was clear, and stays accounted for. -/
theorem Accounted.receive (hacc : Accounted p₀ h) (hout : Outside p₀ h)
    (hzero : bitmapTest p₀.bitmap 0 = true) {n : ℕ} {r : Word × Pmm}
    (hcase : AllocCase h.pmm n r) :
    (∀ x ∈ handedOut r.1 n, bitmapTest h.pmm.bitmap x = false) ∧
      Accounted p₀ (h.receive r.2 (handedOut r.1 n)) ∧
        Outside p₀ (h.receive r.2 (handedOut r.1 n)) := by
  cases hcase with
  | failed =>
      have hnone : handedOut 0#64 n = ∅ := if_pos rfl
      rw [hnone]
      refine ⟨by simp, ⟨hacc.highest, hacc.cursor, ?_, ?_, ?_, hacc.counter⟩, ?_⟩
      · exact pairwise_disjoint_cons hacc.disjoint (by simp)
      · intro i hi
        exact hacc.below i (by simpa [Holding.receive] using hi)
      · intro i
        simpa [Holding.receive] using hacc.bits i
      · intro x hx
        exact hout x (by simpa [Holding.receive] using hx)
  | taken i p' hn takes =>
      have hmem : i ∈ Finset.Ico i (i + n) := Finset.mem_Ico.mpr ⟨le_rfl, by omega⟩
      -- page 0 is never clear, so the address is not the null address
      have hpos : 0 < i := by
        rw [Nat.pos_iff_ne_zero]
        rintro rfl
        have hset := (hacc.bits 0).mpr (.inl hzero)
        rw [takes.test_eq_false hmem] at hset
        cases hset
      rw [handedOut_pageAddr hpos (takes.lt_pages hmem)]
      have hfree : ∀ x ∈ Finset.Ico i (i + n),
          ¬ (bitmapTest p₀.bitmap x = true ∨ Owned h.blocks x) := by
        intro x hx
        rw [← hacc.bits, takes.test_eq_false hx]
        simp
      refine ⟨fun x hx => takes.test_eq_false hx,
        ⟨takes.highest.trans hacc.highest, takes.cursor, ?_, ?_, ?_,
          takes.counter hacc.counter⟩, ?_⟩
      · exact pairwise_disjoint_cons hacc.disjoint (fun x hx ho => hfree x hx (.inr ho))
      · intro x hx
        rw [Holding.receive, takes.highest]
        rcases owned_cons.mp hx with hx | hx
        · exact takes.lt hx
        · exact hacc.below x hx
      · intro x
        simp only [Holding.receive, takes.bits, Bool.or_eq_true, decide_eq_true_eq, owned_cons,
          hacc.bits x]
        exact or_left_comm
      · intro x hx
        rcases Finset.mem_union.mp hx with hx | hx
        · exact hout x hx
        · have hlt := takes.lt hx
          rw [hacc.highest] at hlt
          exact ⟨hlt, by simpa using fun ht => hfree x hx (.inl ht)⟩

/-! ## Frees -/

theorem Accounted.release (hacc : Accounted p₀ h) {x : ℕ} (hx : x < p₀.highestPage)
    (hclear : bitmapTest p₀.bitmap x = false) :
    Accounted p₀ (h.perform (.free (pageAddr x))) := by
  have hdiv : (pageAddr x).toNat / 4096 = x := pageAddr_div (hx.trans p₀.highest_lt)
  have hbits := pmmFreePage_bits h.pmm (pageAddr x)
  rw [hdiv] at hbits
  refine ⟨?_, ?_, pairwise_disjoint_release _ hacc.disjoint, ?_, ?_, ?_⟩
  · simpa [Holding.perform] using hacc.highest
  · simpa [Holding.perform] using hacc.cursor
  · intro i hi
    simpa [Holding.perform] using hacc.below i (owned_release.mp hi).2
  · intro i
    simp only [Holding.perform, hdiv, owned_release, hbits, Bool.and_eq_true, hacc.bits i]
    by_cases hi : i = x
    · subst i
      simp [hclear]
    · simp [hi]
  · simp only [Holding.perform, pmmFreePage_highestPage, pmmFreePage_freeMemory, hdiv]
    split
    · rename_i hset
      rw [← hacc.highest] at hx
      have hcard := card_clearPages_release hbits hx hset
      have hle := card_clearPages_le (pmmFreePage h.pmm (pageAddr x)).bitmap h.pmm.highestPage
      have hlt := h.pmm.highest_lt
      have hfree := hacc.counter
      rw [BitVec.toNat_add, hfree, hcard]
      simp only [BitVec.toNat_ofNat]
      omega
    · rename_i hset
      have hsame : (pmmFreePage h.pmm (pageAddr x)).bitmap = h.pmm.bitmap := by
        simp only [pmmFreePage, hdiv, hset, if_false, Bool.false_eq_true]
      rw [hsame]
      exact hacc.counter

/-! ## Runs -/

theorem Accounted.step (hacc : Accounted p₀ h) (hout : Outside p₀ h)
    (hzero : bitmapTest p₀.bitmap 0 = true) {request : Request}
    (hlegal : ∀ page, request = .free page → ∃ x ∈ h.given, page = pageAddr x) :
    (∀ x ∈ request.obtains h.pmm, bitmapTest h.pmm.bitmap x = false) ∧
      Accounted p₀ (h.perform request) ∧ Outside p₀ (h.perform request) := by
  cases request with
  | page => exact hacc.receive hout hzero (pmmAllocPage_cases hacc.cursor)
  | pages count => exact hacc.receive hout hzero (pmmAllocPages_cases hacc.cursor count)
  | free page =>
      obtain ⟨x, hx, rfl⟩ := hlegal page rfl
      obtain ⟨hlt, hclear⟩ := hout x hx
      exact ⟨by simp [Request.obtains], hacc.release hlt hclear, hout⟩

theorem Accounted.run (hacc : Accounted p₀ h) (hout : Outside p₀ h)
    (hzero : bitmapTest p₀.bitmap 0 = true) (requests : List Request) (hlegal : Legal h requests)
    (n : ℕ) :
    Accounted p₀ (h.run (requests.take n)) ∧
      ∀ request, requests[n]? = some request →
        ∀ x ∈ request.obtains (h.run (requests.take n)).pmm,
          bitmapTest (h.run (requests.take n)).pmm.bitmap x = false := by
  induction requests generalizing h n with
  | nil =>
      rw [List.take_nil]
      exact ⟨hacc, by simp⟩
  | cons request requests ih =>
      obtain ⟨hclear, hacc', hout'⟩ := hacc.step hout hzero hlegal.1
      cases n with
      | zero =>
          refine ⟨hacc, ?_⟩
          intro r hr
          obtain rfl := Option.some_inj.mp hr
          exact hclear
      | succ n => exact ih hacc' hout' hlegal.2 n

/-- At every point of every run of the allocator a page is handed out only when its bit
is clear, the owned ranges are disjoint and below the highest page, the set bits are the
initial and the owned pages, and the counter is exact. -/
theorem page_ownership (p : Pmm) (hcursor : p.lastAllocatedIndex ≤ p.highestPage)
    (hzero : bitmapTest p.bitmap 0 = true)
    (hfree : p.freeMemory.toNat = 4096 * (clearPages p.bitmap p.highestPage).card)
    (requests : List Request) (hlegal : Legal (.start p) requests) (n : ℕ) :
    Accounted p ((Holding.start p).run (requests.take n)) ∧
      ∀ request, requests[n]? = some request →
        ∀ x ∈ request.obtains ((Holding.start p).run (requests.take n)).pmm,
          bitmapTest ((Holding.start p).run (requests.take n)).pmm.bitmap x = false := by
  have hacc : Accounted p (.start p) :=
    ⟨rfl, hcursor, List.Pairwise.nil, by simp [Holding.start], by simp [Holding.start], hfree⟩
  exact hacc.run (by simp [Outside, Holding.start]) hzero requests hlegal n

theorem page_ownership_eightPages :
    Accounted eightPages ((Holding.start eightPages).run
      [.page, .pages 2#64, .free (pageAddr 1), .free (pageAddr 1)]) :=
  (page_ownership eightPages (by decide) (by decide) (by decide)
    [.page, .pages 2#64, .free (pageAddr 1), .free (pageAddr 1)]
    ⟨by simp, by simp, by simpa using ⟨1, by decide, rfl⟩, by simpa using ⟨1, by decide, rfl⟩,
      trivial⟩ 4).1

end LispDos.Memory
