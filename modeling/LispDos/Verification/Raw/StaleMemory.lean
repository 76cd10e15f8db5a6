import LispDos.Verification.Raw.Arguments

/-! # Free pages and new programs

The same program is started on two machines that differ in the contents of free pages
only. What it finds in its segments comes from the file, but its stack page is not
cleared. With the pages of the bitmap in use, the two machines have the same allocator. -/

namespace LispDos.Raw

open Foundation Memory Process

variable {r r' r₁ r₂ : Machine} {w : Word} {t n : ℕ} {fs : Files} {filename file : List UInt8}
  {args : Option (List UInt8)}

/-- The machines differ only in the contents of pages marked free. -/
structure SameButFree (r r' : Machine) : Prop where
  bitmap : r'.pmmBitmap = r.pmmBitmap
  freeMemory : r'.pmmFreeMemory = r.pmmFreeMemory
  highest : r'.pmmHighestPage = r.pmmHighestPage
  last : r'.pmmLastAllocatedIndex = r.pmmLastAllocatedIndex
  kernel : r'.kernelPml4 = r.kernelPml4
  mem : ∀ t, t ∉ clearPages r.bitmap r.pmmHighestPage → r'.mem t = r.mem t

/-- If both calls enter user mode, it reads the same at every address of the lower half. -/
def SameView (x y : ExecExit × Loader) : Prop :=
  ∀ map entry stack map' entry' stack', x.1 = .entered map entry stack →
    y.1 = .entered map' entry' stack' → ∀ v : Word, v.toNat < 2 ^ 47 →
      userByte x.2.machine.mem (map.toNat / 4096) v = userByte y.2.machine.mem (map'.toNat / 4096) v

/-- What was in free pages cannot be told from the new address space. -/
def HidesFreePages (fs : Files) (filename : List UInt8) (args : Option (List UInt8))
    (r : Machine) : Prop :=
  ∀ r₁ r₂, SameButFree r r₁ → SameButFree r r₂ →
    SameView (processExec fs filename args r₁) (processExec fs filename args r₂)

/-! ## The bitmap is the same -/

section Same

variable (h : SameButFree r r')

include h

theorem SameButFree.stores_iff : r'.Stores t ↔ r.Stores t := by
  rw [Machine.Stores, Machine.Stores, Machine.bitmapBytes, Machine.bitmapBytes, h.bitmap, h.highest]

variable (hsafe : BitmapSafe r)

include hsafe

theorem SameButFree.byte {i : ℕ} (hi : i < r.bitmapBytes) : r'.bitmap i = r.bitmap i := by
  have hstored : r.Stores ((r.pmmBitmap + i) / 4096) := ⟨i, hi, rfl⟩
  rw [Machine.bitmap, Machine.bitmap, h.bitmap,
    loadByte_congr (h.mem _ (hsafe.used _ hstored)) (by omega)]

theorem SameButFree.test {i : ℕ} (hi : i < r.pmmHighestPage) :
    bitmapTest r'.bitmap i = bitmapTest r.bitmap i := by
  rw [bitmapTest, bitmapTest, h.byte hsafe (bit_lt hi)]

/-- Behind the bits of the pages there are only set bits on the machine that is taken apart. -/
theorem SameButFree.apart_pmm : r'.apart.pmm = r.apart.pmm := by
  have hbits : (fun j => r'.bitmap j ||| bitsAbove r'.pmmHighestPage j) =
      fun j => r.bitmap j ||| bitsAbove r.pmmHighestPage j := by
    funext j
    rw [h.highest]
    by_cases hj : j < r.bitmapBytes
    · rw [h.byte hsafe hj]
    · have hall : bitsAbove r.pmmHighestPage j = BitVec.allOnes 8 := by
        have habove : r.pmmHighestPage - 8 * j = 0 := by
          unfold Machine.bitmapBytes at hj
          omega
        rw [bitsAbove, habove]
        decide
      rw [hall, BitVec.or_allOnes, BitVec.or_allOnes]
  simp only [Machine.apart, Machine.pmm, h.freeMemory, h.highest, h.last, Pmm.mk.injEq, and_true]
  rw [← hbits, h.highest]

theorem SameButFree.zero (hzero : bitmapTest r.bitmap 0 = true) : bitmapTest r'.bitmap 0 = true := by
  rcases Nat.eq_zero_or_pos r.pmmHighestPage with hnone | hpos
  · have hmem : ∀ t, r'.mem t = r.mem t := fun t => h.mem t (by simp [mem_clearPages, hnone])
    rwa [bitmap_congr (funext hmem) h.bitmap]
  · rwa [h.test hsafe hpos]

theorem SameButFree.safe : BitmapSafe r' where
  used t ht := by
    have hstored := h.stores_iff.mp ht
    rw [mem_clearPages, h.highest]
    rintro ⟨hlt, hclear⟩
    rw [h.test hsafe hlt] at hclear
    exact hsafe.used t hstored (mem_clearPages.mpr ⟨hlt, hclear⟩)
  above := h.bitmap ▸ hsafe.above
  kernel := by
    rw [h.stores_iff, h.kernel]
    exact hsafe.kernel

end Same

/-! ## Entering user mode -/

/-- Whether user mode is entered depends on the allocator only. -/
theorem entered_iff (hsafe : BitmapSafe r) (hzero : bitmapTest r.bitmap 0 = true)
    (hfile : RegularElf file) (hdelivers : Delivers fs filename file) (hargs : ArgsFit args) :
    Entered (processExec fs filename args r) ↔ Enterable file r.apart := by
  have hused := zero_apart hzero
  have hmaps := maps_of_loadsLow hused (hfile.loadsLow hdelivers hused) args
  have hexit := (processExec_alike hsafe hzero hdelivers.storesFit args).exit_eq hargs hmaps
  have hsame : Entered (processExec fs filename args r) ↔
      Process.Entered (Process.processExec fs filename args r.apart) := by
    simp only [Entered, Process.Entered, hexit]
  rw [hsame]
  exact ⟨Enterable.of_entered hfile hdelivers hused hargs,
    Enterable.entered hfile hdelivers hused hargs⟩

/-- With memory for the tables above the stack page no allocation fails. -/
theorem Enterable.loads (h : Enterable file r.apart) (hstack : StackRoom file r.apart)
    (hsafe : BitmapSafe r) (hzero : bitmapTest r.bitmap 0 = true) (hfile : RegularElf file)
    (hdelivers : Delivers fs filename file) (hargs : ArgsFit args) :
    ∃ c l m' pages S pages' S' n, Loads r fs filename file args c l m' pages S pages' S' n := by
  have hused := zero_apart hzero
  have hlow := hfile.loadsLow hdelivers hused
  exact exec_loads hfile hdelivers hsafe hzero hargs
    ((noAllocFails_iff hsafe hzero hdelivers.storesFit hargs hlow).mpr
      (h.toLoadable.noAllocFails hdelivers hused h.buffer hfile.not_refused hstack hargs))

/-- Arguments that fill the stack page leave nothing of what was there. -/
theorem userByte_of_fills (hsafe : BitmapSafe r) (hzero : bitmapTest r.bitmap 0 = true)
    (hfile : RegularElf file) (hdelivers : Delivers fs filename file) (hargs : ArgsFit args)
    (hfills : FillsStack args) (hroom : StackRoom file r.apart) {map entry stack : Word}
    (hexit : (processExec fs filename args r).1 = .entered map entry stack) {v : Word}
    (hv : v.toNat < 2 ^ 47) :
    userByte (processExec fs filename args r).2.machine.mem (map.toNat / 4096) v =
      if v.toNat / 4096 = stackPage.number then
        some (stackByte args (fun _ => 0) (v.toNat % 4096))
      else planByte file v.toNat := by
  have henterable := (entered_iff hsafe hzero hfile hdelivers hargs).mp ⟨map, entry, stack, hexit⟩
  obtain ⟨c, l, m', pages, S, pages', S', n, h⟩ :=
    Enterable.loads henterable hroom hsafe hzero hfile hdelivers hargs
  obtain ⟨rfl, _, _⟩ := ExecExit.entered.inj (hexit.symm.trans h.exit)
  rw [h.root, h.byte v hv]
  exact h.stacked.userByte_of_fills h.completes hfile hfills hv

/-! ## Other arguments -/

/-- The machine with the word `w` everywhere in its free pages. -/
def fillFree (r : Machine) (w : Word) : Machine :=
  { r with
    mem := fun t => if t ∈ clearPages r.bitmap r.pmmHighestPage then fun _ => w else r.mem t }

theorem sameButFree_fillFree (r : Machine) (w : Word) : SameButFree r (fillFree r w) :=
  ⟨rfl, rfl, rfl, rfl, rfl, fun _ ht => if_neg ht⟩

/-- A page that is free once the file has been read is filled with the word. -/
theorem fillFree_mem {c : Context} (hsafe : BitmapSafe r) (hholds : c.Holds (fillFree r w).apart file)
    (hn : n ∈ clearPages c.machine.pmm.bitmap c.machine.pmm.highestPage) :
    c.machine.mem n = fun _ => w := by
  obtain ⟨hclear, hmem⟩ := hholds.free_mem hn
  rw [(sameButFree_fillFree r w).apart_pmm hsafe, mem_clearPages, r.test_apart] at hclear
  obtain ⟨hlt, hclear⟩ := hclear
  rw [hmem]
  exact if_pos (mem_clearPages.mpr ⟨hlt, (Bool.or_eq_false_iff.mp hclear).1⟩)

/-- The first byte of the stack of a program that does not fill it. -/
theorem fillFree_shows (hsafe : BitmapSafe r) (hzero : bitmapTest r.bitmap 0 = true)
    (hfile : RegularElf file) (hdelivers : Delivers fs filename file) (hargs : ArgsFit args)
    (hnot : ¬ FillsStack args) (h : Enterable file r.apart) (w : Word) :
    ∃ map entry stack, (processExec fs filename args (fillFree r w)).1 = .entered map entry stack ∧
      ShowsWord w (userByte (processExec fs filename args (fillFree r w)).2.machine.mem
        (map.toNat / 4096) userStack) ∧
      (StackRoom file r.apart → userByte (processExec fs filename args
        (fillFree r w)).2.machine.mem (map.toNat / 4096) userStack = some (wordByte w 0)) := by
  have hsame := sameButFree_fillFree r w
  have hpmm := hsame.apart_pmm hsafe
  have hzero' := hsame.zero hsafe hzero
  have hsafe' := hsame.safe hsafe
  obtain ⟨map, entry, stack, hexit⟩ :=
    (entered_iff hsafe' hzero' hfile hdelivers hargs).mpr (h.congr hpmm)
  have hlow := hfile.loadsLow hdelivers (zero_apart hzero')
  have hmaps := maps_of_loadsLow (zero_apart hzero') hlow args
  obtain ⟨c, l', D, hentry⟩ :=
    (processExec_alike hsafe' hzero' hdelivers.storesFit args).entry hargs hmaps hexit
  obtain ⟨hmap, _, _⟩ := ExecExit.entered.inj (hexit.symm.trans hentry.jumped.exit)
  refine ⟨map, entry, stack, hexit, ?_⟩
  rw [hmap, Context.map_div hentry.accepted]
  have hholds := hdelivers.holds (zero_apart hzero') hentry.context
  have henterable := h.congr hpmm
  have hreached := hfile.reached_plan hholds
  obtain ⟨n, hfree, hbytes, hcase⟩ :=
    hentry.stack_cases hargs fun s hs => hfile.low (hreached s hs)
  have hoffset : userStack.toNat % 4096 = 0 := by decide
  -- the first byte of the stack page is that of the word
  have hstart := hbytes 0 (by decide)
  rw [stackByte_start hargs hnot, Nat.add_zero, loadByte_pageStart c.machine.mem,
    fillFree_mem hsafe hholds hfree] at hstart
  rcases hcase with ⟨hfits, hstack⟩ | ⟨hshort, htable⟩
  · have hbyte := hstack.userByte_eq (v := userStack) (by decide)
    rw [hoffset, Nat.add_zero, hstart] at hbyte
    exact ⟨.inl hbyte, fun _ => hbyte⟩
  · obtain ⟨hsmall, hword, q, hq, hpre, _, hlead⟩ := htable
    refine ⟨?_, ?_⟩
    · rcases userByte_zero (v := userStack) (by decide) hsmall hword hq hpre hlead with hx | hx
      · left
        rw [hx, hoffset, Nat.add_zero, hstart]
      · right
        rw [← loadByte_pageStart, hstart] at hx
        exact hx
    · intro hroom
      have hall := hholds.reached_eq henterable.size hfile.accepted
      have hfree := freePages_congr hpmm
      unfold StackRoom fileRemaining at hroom
      rw [hall, henterable.all, hholds.remaining_eq henterable.size hfile.accepted,
        fileRemaining, hfree] at hshort
      unfold filePlan at hroom hshort
      omega

/-- With the pages of the bitmap in use, and where the arguments fill the stack page also memory for
the tables above it, a program cannot tell what was in the free pages exactly if its arguments fill
the stack page. -/
theorem free_pages_hidden_iff (fs : Files) (filename file : List UInt8)
    (args : Option (List UInt8)) (r : Machine) (hsafe : BitmapSafe r)
    (hzero : bitmapTest r.bitmap 0 = true) (hfile : RegularElf file)
    (hdelivers : Delivers fs filename file) (hargs : ArgsFit args)
    (hentered : Entered (processExec fs filename args r))
    (hroom : FillsStack args → StackRoom file r.apart) :
    HidesFreePages fs filename args r ↔ FillsStack args := by
  constructor
  · intro hides
    by_contra hnot
    have henterable := (entered_iff hsafe hzero hfile hdelivers hargs).mp hentered
    have hshows := fillFree_shows hsafe hzero hfile hdelivers hargs hnot henterable
    obtain ⟨map₀, entry₀, stack₀, hexit₀, h₀, _⟩ := hshows 0#64
    obtain ⟨map₂, entry₂, stack₂, hexit₂, h₂, _⟩ := hshows 2#64
    obtain ⟨map, entry, stack, hexit, hpage, _⟩ := hshows 0x87#64
    have hlow : userStack.toNat < 2 ^ 47 := by decide
    have hsame := fun w w' => hides _ _ (sameButFree_fillFree r w) (sameButFree_fillFree r w')
    rw [hsame 0#64 2#64 _ _ _ _ _ _ hexit₀ hexit₂ userStack hlow] at h₀
    rw [hsame 0x87#64 2#64 _ _ _ _ _ _ hexit hexit₂ userStack hlow] at hpage
    exact words_told_apart h₀ h₂ hpage
  · intro hfills r₁ r₂ h₁ h₂ map₁ entry₁ stack₁ map₂ entry₂ stack₂ hexit₁ hexit₂ v hv
    have hroom' : ∀ {r' : Machine}, SameButFree r r' → StackRoom file r'.apart := by
      intro r' hsame
      have hstack := hroom hfills
      unfold StackRoom fileRemaining at hstack ⊢
      rwa [freePages_congr (hsame.apart_pmm hsafe)]
    rw [userByte_of_fills (h₁.safe hsafe) (h₁.zero hsafe hzero) hfile hdelivers hargs hfills
        (hroom' h₁) hexit₁ hv,
      userByte_of_fills (h₂.safe hsafe) (h₂.zero hsafe hzero) hfile hdelivers hargs hfills
        (hroom' h₂) hexit₂ hv]

/-! ## A program with an argument of one byte -/

theorem smallFile_enterable : Enterable smallFile sampleMachine.apart :=
  ⟨smallFile_loadable, smallFile_room, lt_of_lt_of_le (by omega) smallFile_stackRoom⟩

/-- The program finds what was in the free pages. -/
theorem smallFile_shows (w : Word) : ∃ map entry stack,
    (processExec (sampleFiles smallFile) [0x61] (some [0x78]) (fillFree sampleMachine w)).1 =
        .entered map entry stack ∧
      userByte (processExec (sampleFiles smallFile) [0x61] (some [0x78])
        (fillFree sampleMachine w)).2.machine.mem (map.toNat / 4096) userStack =
          some (wordByte w 0) := by
  have hfits : ¬ FillsStack (some [0x78]) := by simp [FillsStack]
  obtain ⟨map, entry, stack, hexit, _, hshows⟩ := fillFree_shows sampleMachine_safe (by decide)
    smallFile_regular smallFile_delivers (by simp [ArgsFit]) hfits smallFile_enterable w
  exact ⟨map, entry, stack, hexit, hshows smallFile_stackRoom⟩

theorem free_pages_hidden_iff_smallFile :
    HidesFreePages (sampleFiles smallFile) [0x61] (some [0x78]) sampleMachine ↔
      FillsStack (some [0x78]) :=
  free_pages_hidden_iff _ _ _ _ _ sampleMachine_safe (by decide) smallFile_regular
    smallFile_delivers (by simp [ArgsFit]) (smallFile_entered (by simp [ArgsFit]))
    (by simp [FillsStack])

/-- The call enters user mode on two machines that differ in free pages only, and the stacks
differ. -/
theorem smallFile_tells_free_pages_apart :
    SameButFree sampleMachine (fillFree sampleMachine 0#64) ∧
      SameButFree sampleMachine (fillFree sampleMachine 1#64) ∧
      Entered (processExec (sampleFiles smallFile) [0x61] (some [0x78])
        (fillFree sampleMachine 0#64)) ∧
      Entered (processExec (sampleFiles smallFile) [0x61] (some [0x78])
        (fillFree sampleMachine 1#64)) ∧
      ¬ SameView (processExec (sampleFiles smallFile) [0x61] (some [0x78])
          (fillFree sampleMachine 0#64))
        (processExec (sampleFiles smallFile) [0x61] (some [0x78]) (fillFree sampleMachine 1#64)) := by
  obtain ⟨map₀, entry₀, stack₀, hexit₀, h₀⟩ := smallFile_shows 0#64
  obtain ⟨map₁, entry₁, stack₁, hexit₁, h₁⟩ := smallFile_shows 1#64
  refine ⟨sameButFree_fillFree _ _, sameButFree_fillFree _ _, ⟨_, _, _, hexit₀⟩, ⟨_, _, _, hexit₁⟩,
    fun hsame => ?_⟩
  have heq := hsame _ _ _ _ _ _ hexit₀ hexit₁ userStack (by decide)
  rw [h₀, h₁] at heq
  exact absurd heq (by decide)

end LispDos.Raw
