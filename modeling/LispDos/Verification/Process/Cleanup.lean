import LispDos.Verification.Process.Delivery

/-! # What a failed call leaves behind

A call that does not enter user mode frees the file buffer and what the address space
leads to. It restores the allocator exactly when no page has been mapped twice and no
table was missing. -/

namespace LispDos.Process

open Memory Foundation

variable {m m₁ : Machine} {phys map : Word} {size root n i : ℕ} {pages S : List ℕ}

/-! ## Frees -/

/-- The addresses of a row of pages. -/
theorem row_pages {i n : ℕ} (hn : i + n ≤ 2 ^ 40) : (List.range' i n).map pageAddr =
    (List.range n).map fun j => pageAddr i + BitVec.ofNat 64 j * 4096#64 := by
  have haddr : ∀ j < n, pageAddr i + BitVec.ofNat 64 j * 4096#64 = pageAddr (i + j) := by
    intro j hj
    apply BitVec.eq_of_toNat_eq
    rw [pageAddr_toNat (by omega), BitVec.toNat_add, BitVec.toNat_mul, BitVec.toNat_ofNat,
      pageAddr_toNat (by omega)]
    have hconst : (4096#64 : Word).toNat = 4096 := rfl
    rw [hconst]
    omega
  rw [List.range'_eq_map_range, List.map_map]
  refine List.map_congr_left ?_
  intro j hj
  exact (haddr j (List.mem_range.mp hj)).symm

/-- The loop that frees the file buffer. -/
theorem freeFile_eq (i n : ℕ) (hn : i + n ≤ 2 ^ 40) (m : Machine) :
    freeFile (pageAddr i) n m = ((List.range' i n).map pageAddr).foldl Machine.freePage m := by
  rw [row_pages hn, List.foldl_map]
  rfl

/-! ## Releasing an address space -/

/-- The bits of the pages are as they were. -/
def SameBits (m m' : Machine) : Prop :=
  ∀ x < m.pmm.highestPage, bitmapTest m'.pmm.bitmap x = bitmapTest m.pmm.bitmap x

section Release

variable {m₀ : Machine} (hroot : 0 < root) (hroot' : root < 2 ^ 40)

include hroot hroot'

theorem pageAddr_ne_zero : pageAddr root ≠ 0#64 := by
  intro hz
  have := congrArg BitVec.toNat hz
  rw [pageAddr_toNat (hroot'.trans (by decide))] at this
  simp at this
  omega

/-- The frees at the end of a call, in order. -/
theorem release_eq (hn : i + n ≤ 2 ^ 40) (m : Machine) :
    vmmFreePagemap (freeFile (pageAddr i) n m) (pageAddr root) =
      ((List.range' i n ++ (subtables codeNext m.mem 512 4 256 root ++ [root])).map
        pageAddr).foldl Machine.freePage m := by
  have hdiv : (pageAddr root).toNat / 4096 = root := pageAddr_div (hroot'.trans (by decide))
  have hmem := foldl_freePage_mem ((List.range' i n).map pageAddr) m
  rw [freeFile_eq i n hn, vmmFreePagemap_eq, freedPages_eq (pageAddr_ne_zero hroot hroot'), hdiv,
    hmem]
  simp only [List.map_append, List.foldl_append, List.map_cons, List.map_nil]

variable (hn : i + n ≤ 2 ^ 40) (hfile : Took m₀.pmm m₁.pmm (List.range' i n))

include hn hfile

/-- A page that the file buffer does not have and the tree does not reach is not freed. -/
theorem reached_of_sameBits (h : Half m₁ m root pages S)
    (hsame : SameBits m₀ (vmmFreePagemap (freeFile (pageAddr i) n m) (pageAddr root))) :
    ∀ x ∈ pages, x ∈ S := by
  have htook := Took.trans hfile h.took
  have hreach := h.tree.mem_freed
  intro x hx
  by_contra hxS
  -- the bit of the lost page is still set
  have hnot : x ∉ List.range' i n ++ (subtables codeNext m.mem 512 4 256 root ++ [root]) := by
    rw [List.mem_append, hreach]
    rintro (hxf | hxS')
    · exact (List.disjoint_of_nodup_append htook.nodup) hxf hx
    · exact hxS hxS'
  have hin : x ∈ List.range' i n ++ pages := List.mem_append_right _ hx
  have hbit := hsame x (htook.below x hin)
  simp only [release_eq hroot hroot' hn, foldl_freePage_test, List.map_map, htook.bits,
    htook.clear x hin, decide_eq_true hin, Bool.true_or, Bool.and_true, Bool.not_eq_eq_eq_not,
    Bool.not_false, decide_eq_true_eq] at hbit
  obtain ⟨y, hy, hyx⟩ := List.mem_map.mp hbit
  have hsmall : y < 2 ^ 52 := by
    rcases List.mem_append.mp hy with hy | hy
    · exact hfile.small y hy
    · exact h.took.small y (h.sub y ((hreach y).mp hy))
  rw [Function.comp_apply, pageAddr_div hsmall] at hyx
  exact hnot (hyx ▸ hy)

/-- A tree that reaches every page it was given gives them all back. -/
theorem half_restored (h : Half m₁ m root pages S) (hall : ∀ x ∈ pages, x ∈ S) :
    Restored m₀ (vmmFreePagemap (freeFile (pageAddr i) n m) (pageAddr root)) := by
  rw [release_eq hroot hroot' hn]
  have hiff : ∀ x, x ∈ S ↔ x ∈ pages := fun x => ⟨h.sub x, hall x⟩
  refine Took.restored (Took.trans hfile h.took) ?_
  exact ((h.tree.of_mem_iff hiff).subtables_perm h.took.nodup).append_left _

/-- An address space that leads to page 0 has that page freed. -/
theorem starved_not_sameBits (h : Starved m₁ m root pages S)
    (hzero : bitmapTest m₀.pmm.bitmap 0 = true) :
    ¬ SameBits m₀ (vmmFreePagemap (freeFile (pageAddr i) n m) (pageAddr root)) := by
  intro hsame
  obtain ⟨q, hq, hne, hx⟩ := h.leads m.mem (fun _ _ => rfl)
  obtain ⟨j, r, rfl⟩ := List.exists_cons_of_ne_nil hne
  have hmem : 0 ∈ subtables codeNext m.mem 512 4 256 root :=
    (mem_subtables _ _ _ _).mpr ⟨j, r, below_iff_lowerPath.mpr hq, hx⟩
  have hbelow := (Took.trans hfile h.took).below root
    (List.mem_append_right _ (h.sub root h.root_mem))
  have hbit := hsame 0 (hroot.trans hbelow)
  simp only [release_eq hroot hroot' hn, foldl_freePage_test, hzero, Bool.and_eq_true,
    Bool.not_eq_eq_eq_not, Bool.not_true, decide_eq_false_iff_not, List.map_map] at hbit
  refine hbit.1 (List.mem_map.mpr ⟨0, ?_, by decide⟩)
  simp [hmem]

end Release

/-! ## Failed calls -/

/-- The call comes back to its caller without having entered user mode. -/
def ExecExit.returns : ExecExit → Bool
  | .readHangs | .copyFaults | .entered _ _ _ => false
  | _ => true

/-- No page is mapped twice, and every table can be allocated. -/
structure Context.Clean (c : Context) : Prop where
  starves : c.starves = false
  nodup : (c.reached.map SegPage.number).Nodup

/-- With no memory left no page is reached. -/
theorem Context.clean_of_full {c : Context} (h : freePages c.machine = 0) : c.Clean := by
  have hfree : c.free = 0 := by
    rw [Context.free]
    omega
  refine ⟨starves_full hfree, ?_⟩
  rw [Context.reached, reached_full hfree]
  exact List.nodup_nil

theorem Loaded.zero_used {c : Context} {l : Loader} (h : Loaded c none l)
    (hlow : ∀ s ∈ c.reached, s.vaddr.toNat < 2 ^ 47) :
    bitmapTest l.machine.pmm.bitmap 0 = true := by
  generalize hexit : (none : Option ExecExit) = exit at h
  cases h with
  | high exit l before v hmap hv hreached hcopies =>
      exact (not_high hlow hreached).elim
  | faults l hlogged hfaults => cases hexit
  | starved exit l pages S hexit hstarves hlogged before v hmap hnone hstarved =>
      exact hstarved.zero_used
  | full l pages S hstarves hmore hlogged hfull hp => exact hp.half.zero_used
  | complete l pages S hstarves hall hleft hlogged hp => exact hp.half.zero_used

/-- The call has given back what it had allocated exactly if `P`. -/
structure GivesBack (m m' : Machine) (P : Prop) : Prop where
  highest : m'.pmm.highestPage = m.pmm.highestPage
  bits : SameBits m m' → P
  all : P → Restored m m'

theorem GivesBack.of_iff {m m' : Machine} {P Q : Prop} (h : GivesBack m m' P) (hiff : Q ↔ P) :
    GivesBack m m' Q :=
  ⟨h.highest, fun hsame => hiff.mpr (h.bits hsame), fun hq => h.all (hiff.mp hq)⟩

/-- The end of a call whose loading has stopped, or whose stack could not be allocated. -/
theorem Loaded.release_givesBack {m₀ : Machine} {c : Context} {exit : Option ExecExit}
    {l : Loader} (h : Loaded c exit l) (hc : c.Accepted) (hzero : bitmapTest m₀.pmm.bitmap 0 = true)
    (hexit : exit ≠ some .copyFaults) (hlow : ∀ s ∈ c.reached, s.vaddr.toNat < 2 ^ 47)
    (hfetched : Fetched m₀ c.machine c.phys c.size i) :
    GivesBack m₀ (vmmFreePagemap (freeFile c.phys (filePages c.size) l.machine) c.map) c.Clean := by
  have hhighest : ∀ pages S : List ℕ, Took c.machine.pmm l.machine.pmm pages →
      (vmmFreePagemap (freeFile c.phys (filePages c.size) l.machine) c.map).pmm.highestPage =
        m₀.pmm.highestPage := by
    intro pages S took
    rw [vmmFreePagemap_eq, foldl_freePage_highest, hfetched.addr, freeFile_eq _ _ hfetched.bound,
      foldl_freePage_highest, took.highest, hfetched.took.highest]
  have hprogress : ∀ pages S : List ℕ, c.starves = false →
      Progress c.buf c.limit c.machine l.machine c.root pages S c.reached →
      GivesBack m₀ (vmmFreePagemap (freeFile c.phys (filePages c.size) l.machine) c.map)
        c.Clean := by
    intro pages S hstarves hp
    have hroot : 0 < c.root := Nat.pos_of_ne_zero (hp.half.ne_zero (lowerPath_nil 4) rfl)
    have hclean : c.Clean ↔ ∀ x ∈ pages, x ∈ S := by
      rw [hp.leaks]
      exact ⟨fun hclean => hclean.nodup, fun hnodup => ⟨hstarves, hnodup⟩⟩
    refine GivesBack.of_iff ?_ hclean
    refine ⟨hhighest pages S hp.half.took, ?_, ?_⟩
    · rw [Context.map, hfetched.addr]
      exact reached_of_sameBits hroot hc.root_lt hfetched.bound hfetched.took hp.half
    · rw [Context.map, hfetched.addr]
      exact half_restored hroot hc.root_lt hfetched.bound hfetched.took hp.half
  cases h with
  | high exit l before v hmap hv hreached hcopies =>
      exact (not_high hlow hreached).elim
  | faults l hlogged hfaults => exact (hexit rfl).elim
  | starved exit l pages S hexit hstarves hlogged before v hmap hnone hstarved =>
      have hroot : 0 < c.root := by
        refine Nat.pos_of_ne_zero fun hz => ?_
        have hclear := hstarved.took.clear _ (hstarved.sub _ hstarved.root_mem)
        rw [hz, hstarved.zero] at hclear
        cases hclear
      have hnot := starved_not_sameBits hroot hc.root_lt hfetched.bound hfetched.took hstarved hzero
      refine ⟨hhighest pages S hstarved.took, fun hsame => ?_, fun hclean => ?_⟩
      · rw [Context.map, hfetched.addr] at hsame
        exact (hnot hsame).elim
      · rw [hclean.starves] at hstarves
        cases hstarves
  | full l pages S hstarves hmore hlogged hfull hp => exact hprogress pages S hstarves hp
  | complete l pages S hstarves hall hleft hlogged hp => exact hprogress pages S hstarves hp

/-- A call that ends early before the file is loaded restores the allocator. -/
theorem Fetched.highest {m₀ : Machine} (h : Fetched m₀ m₁ phys size i) :
    (freeFile phys (filePages size) m₁).pmm.highestPage = m₀.pmm.highestPage := by
  rw [h.addr, freeFile_eq i _ h.bound, foldl_freePage_highest, h.took.highest]

theorem Fetched.restored {m₀ : Machine} (h : Fetched m₀ m₁ phys size i) :
    Restored m₀ (freeFile phys (filePages size) m₁) := by
  rw [h.addr, freeFile_eq i _ h.bound]
  exact Took.restored h.took (List.Perm.refl _)

/-- If the file of the call is accepted, its loading is clean. -/
def LoadsClean (fs : Files) (filename : List UInt8) (m : Machine) : Prop :=
  ∀ c, contextOf fs filename m = some c → HeaderAccepted c.buf c.size → c.Clean

/-- A call that returns without having entered user mode leaves the allocator as it was
exactly when its loading is clean. -/
theorem givesBack_loadsClean {fs : Files} {filename : List UInt8} {args : Option (List UInt8)}
    {r : ExecExit × Loader} (hcall : ExecCall fs filename args m r)
    (hzero : bitmapTest m.pmm.bitmap 0 = true) (hlow : LoadsLow fs filename m)
    (hreturns : r.1.returns = true) : GivesBack m r.2.machine (LoadsClean fs filename m) := by
  cases hcall with
  | early exit hexit hfetch =>
      refine ⟨rfl, fun _ c hcontext => ?_, fun _ => ⟨rfl, rfl⟩⟩
      simp [contextOf, hfetch] at hcontext
  | hangs m' hfetch hread hmem => cases hreturns
  | readFailed m₁ phys i hfetch hfetched hfilled =>
      refine ⟨hfetched.highest, fun _ c hcontext => ?_, fun _ => hfetched.restored⟩
      simp [contextOf, hfetch] at hcontext
  | elf m₁ phys i hfetch hfetched hfilled r hcall =>
      have hcontext : contextOf fs filename m =
          some (Context.of m₁ phys (fileSize fs filename).1) := by
        rw [contextOf, hfetch, Option.map_some]
      have hiff : HeaderAccepted (byteAt m₁.mem phys) (fileSize fs filename).1 →
          (LoadsClean fs filename m ↔ (Context.of m₁ phys (fileSize fs filename).1).Clean) := by
        intro hheader
        refine ⟨fun h => h _ hcontext hheader, fun h c hc _ => ?_⟩
        rw [hcontext] at hc
        rwa [← Option.some_inj.mp hc]
      cases hcall with
      | rejected exit hheader =>
          refine ⟨hfetched.highest, fun _ c hc haccepted => ?_, fun _ => hfetched.restored⟩
          rw [hcontext] at hc
          rw [← Option.some_inj.mp hc] at haccepted
          exact ((headerResult_error hheader).1 haccepted).elim
      | noPagemap hheader hfull =>
          refine GivesBack.of_iff ?_ (hiff hheader)
          exact ⟨hfetched.highest, fun _ => Context.clean_of_full hfull, fun _ => hfetched.restored⟩
      | stopped exit l hexit hheader hc hpos hloaded =>
          exact (hloaded.release_givesBack hc hzero (by simpa using hexit)
            (hlow _ hcontext hheader) hfetched).of_iff (hiff hheader)
      | faulted l hheader hc hpos hloaded => cases hreturns
      | entering l hheader hc hpos hloaded =>
          refine GivesBack.of_iff ?_ (hiff hheader)
          simp only [enter] at hreturns ⊢
          split at hreturns
          · rename_i hfail
            rw [if_pos hfail]
            have hused := hloaded.zero_used (hlow _ hcontext hheader)
            obtain ⟨_, hsame, _⟩ | ⟨n, _, _, _, hok, _⟩ := l.machine.allocPage_cases hused
            · rw [hsame]
              exact hloaded.release_givesBack hc hzero (by simp) (hlow _ hcontext hheader)
                hfetched
            · exact (hok hfail).elim
          · cases hreturns

/-! ## A page that is mapped twice -/

/-- Two segments on one page, and one that is refused. -/
def sharedFile : List UInt8 :=
  elfFile 0x400000 [⟨0x400000#64, 1#64, 0#64, 0#64⟩, ⟨0x400800#64, 1#64, 0#64, 0#64⟩,
    ⟨0x800000000000#64, 1#64, 0#64, 0#64⟩]

theorem sharedFile_delivers : Delivers (sampleFiles sharedFile) [0x61] sharedFile :=
  sample_delivers (by decide +kernel) (by decide +kernel) (by decide +kernel)

/-- The context of a call for a file that can be loaded. -/
theorem Loadable.reached_of_context {fs : Files} {filename file : List UInt8}
    (hload : Loadable file m) (h : Delivers fs filename file)
    (hzero : bitmapTest m.pmm.bitmap 0 = true)
    (hroom : (m.allocPages (BitVec.ofNat 64 (filePages file.length))).1 ≠ 0#64) {c : Context}
    (hcontext : contextOf fs filename m = some c) :
    c.reached = pagesOf (segments (fileByte file)) ∧ HeaderAccepted c.buf c.size := by
  obtain ⟨c', hcontext', hholds⟩ := h.context hzero hroom
  rw [hcontext] at hcontext'
  obtain rfl := Option.some_inj.mp hcontext'
  refine ⟨?_, (hholds.accepted_iff hload.size).mpr hload.accepted⟩
  rw [hholds.reached_eq hload.size hload.accepted, hload.all]

/-- A file all of whose pages lie in place is loaded into the lower half. -/
theorem Loadable.loadsLow {fs : Files} {filename file : List UInt8} (hload : Loadable file m)
    (h : Delivers fs filename file) (hzero : bitmapTest m.pmm.bitmap 0 = true)
    (hroom : (m.allocPages (BitVec.ofNat 64 (filePages file.length))).1 ≠ 0#64) :
    LoadsLow fs filename m := by
  intro c hcontext _ s hs
  rw [(hload.reached_of_context h hzero hroom hcontext).1] at hs
  exact (SegPage.astray_eq_false.mp (hload.place s hs)).2

end LispDos.Process
