import LispDos.Verification.Process.Delivery

/-! # Reads of the file buffer

Which bytes of the buffer the loader reads. The table of program headers is checked against
the size of the file; the fields of the ELF header and the segments are not. -/

namespace LispDos.Process

open Memory

variable {m : Machine} {phys : Word} {size : ℕ} {buf : ℕ → UInt8} {l : Loader} {c : Context}
  {fs : Files} {filename : List UInt8}

/-! ## Accesses -/

/-- Every byte that is read has an offset below the size of the file. -/
def Event.inFile (size : ℕ) : Event → Prop
  | .field offset n => ∀ i < n, (offset + BitVec.ofNat 64 i).toNat < size
  | .copy offset n => ∀ i < n, (offset + BitVec.ofNat 64 i).toNat < size
  | .map _ _ _ => True

theorem reads_below_iff {offset : Word} {n : ℕ} (hsize : size < 2 ^ 32) :
    (∀ i < n, (offset + BitVec.ofNat 64 i).toNat < size) ↔ n = 0 ∨ offset.toNat + n ≤ size := by
  constructor
  · intro h
    by_contra hnot
    obtain ⟨hpos, hend⟩ := not_or.mp hnot
    by_cases hstart : size ≤ offset.toNat
    · have hfirst := h 0 (by omega)
      rw [BitVec.add_zero] at hfirst
      omega
    · -- the byte just after the file is one of those that are read
      have hlast := h (size - offset.toNat) (by omega)
      rw [toNat_add_ofNat (by omega)] at hlast
      omega
  · rintro (rfl | hend) i hi
    · omega
    · rw [toNat_add_ofNat (by omega)]
      omega

/-- The bytes that are copied into the page are bytes of the file. -/
def SegPage.readsBelow (size : ℕ) (s : SegPage) : Prop :=
  ∀ start src n, s.copy = some (start, src, n) → n.toNat = 0 ∨ src.toNat + n.toNat ≤ size

theorem SegPage.copyEvents_inFile_iff {s : SegPage} (hsize : size < 2 ^ 32) :
    (∀ e ∈ s.copyEvents, e.inFile size) ↔ s.readsBelow size := by
  cases hcopy : s.copy with
  | none =>
      rw [s.copyEvents_none hcopy]
      simp [SegPage.readsBelow, hcopy]
  | some x =>
      obtain ⟨start, src, n⟩ := x
      rw [s.copyEvents_some hcopy]
      simp only [List.forall_mem_singleton, Event.inFile, reads_below_iff hsize,
        SegPage.readsBelow, hcopy, Option.some_inj, Prod.mk.injEq]
      constructor
      · rintro h _ _ _ ⟨rfl, rfl, rfl⟩
        exact h
      · intro h
        exact h _ _ _ ⟨rfl, rfl, rfl⟩

/-! ## The header -/

theorem field_inFile_iff (hsize : size < 2 ^ 32) (offset : Word) {n : ℕ} (hn : 0 < n) :
    (Event.field offset n).inFile size ↔ offset.toNat + n ≤ size := by
  rw [Event.inFile, reads_below_iff hsize]
  omega

/-- The comparisons of bytes in ascending order stay in the file when one of them fails
there, or when all of them succeed there. -/
theorem magicReads_inFile_iff (hsize : size < 2 ^ 32) {magic : List (Word × Word)}
    (hsorted : magic.Pairwise fun e e' => e.1.toNat < e'.1.toNat) :
    (∀ r ∈ magicReads buf magic, (Event.field r.1 r.2).inFile size) ↔
      (∃ e ∈ magic, e.1.toNat < size ∧ field buf e.1.toNat 1 ≠ e.2) ∨
        (∀ e ∈ magic, field buf e.1.toNat 1 = e.2) ∧ ∀ e ∈ magic, e.1.toNat < size := by
  induction magic with
  | nil => simp [magicReads]
  | cons e magic ih =>
      obtain ⟨hhead, htail⟩ := List.pairwise_cons.mp hsorted
      -- if a later byte lies in the file, so does the first
      have hfirst : (∃ e' ∈ magic, e'.1.toNat < size ∧ field buf e'.1.toNat 1 ≠ e'.2) →
          e.1.toNat < size := by
        rintro ⟨e', he', hlt, _⟩
        exact (hhead e' he').trans hlt
      rw [magicReads, List.forall_mem_cons, field_inFile_iff hsize _ Nat.one_pos, Nat.succ_le_iff,
        List.forall_mem_cons, List.forall_mem_cons]
      simp only [List.mem_cons, exists_eq_or_imp]
      by_cases hmatch : field buf e.1.toNat 1 = e.2
      · rw [if_pos hmatch, ih htail]
        simp only [hmatch, ne_eq, not_true_eq_false, and_false, false_or, true_and]
        constructor
        · rintro ⟨hin, hmiss | ⟨hall, hbelow⟩⟩
          · exact .inl hmiss
          · exact .inr ⟨hall, hin, hbelow⟩
        · rintro (hmiss | ⟨hall, hin, hbelow⟩)
          · exact ⟨hfirst hmiss, .inl hmiss⟩
          · exact ⟨hin, .inr ⟨hall, hbelow⟩⟩
      · rw [if_neg hmatch]
        simp only [hmatch, ne_eq, not_false_eq_true, and_true, false_and, or_false]
        constructor
        · rintro ⟨hin, _⟩
          exact .inl hin
        · rintro (hin | hmiss)
          · exact ⟨hin, by simp⟩
          · exact ⟨hfirst hmiss, by simp⟩

/-- The file is long enough for what the checks of its header read. -/
def HeaderInFile (buf : ℕ → UInt8) (size : ℕ) : Prop :=
  (∃ e ∈ elfMagic, e.1.toNat < size ∧ field buf e.1.toNat 1 ≠ e.2) ∨
    Magic buf ∧ 40 ≤ size ∧ (size ≤ (phoff buf).toNat ∨ 58 ≤ size)

theorem headerLog_inFile_iff (hsize : size < 2 ^ 32) :
    (∀ e ∈ headerLog buf size, e.inFile size) ↔ HeaderInFile buf size := by
  have h32 := field_inFile_iff hsize 32#64 (show 0 < 8 by decide)
  have h56 := field_inFile_iff hsize 56#64 (show 0 < 2 by decide)
  have h24 := field_inFile_iff hsize 24#64 (show 0 < 8 by decide)
  simp only [BitVec.toNat_ofNat, Nat.reducePow, Nat.reduceMod, Nat.reduceAdd] at h32 h56 h24
  have hfour : (∀ e ∈ elfMagic, e.1.toNat < size) ↔ 4 ≤ size := by
    simp [elfMagic]
    omega
  rw [headerLog, List.forall_mem_map, headerReads, List.forall_mem_append,
    magicReads_inFile_iff hsize (by decide), hfour, HeaderInFile]
  by_cases hmagic : Magic buf
  · have hnot : ¬ ∃ e ∈ elfMagic, e.1.toNat < size ∧ field buf e.1.toNat 1 ≠ e.2 := by
      rintro ⟨e, he, _, hne⟩
      exact hne (hmagic e he)
    have hall : (∀ e ∈ elfMagic, field buf e.1.toNat 1 = e.2) = True := eq_true hmagic
    rw [if_neg (not_not.mpr hmagic), List.forall_mem_cons, h32]
    simp only [hnot, hall, hmagic, false_or, true_and]
    by_cases hphoff : size ≤ (phoff buf).toNat
    · rw [if_pos hphoff]
      simp
      omega
    · rw [if_neg hphoff, List.forall_mem_cons, h56]
      by_cases hend : size < tableEnd buf
      · rw [if_pos hend]
        simp
        omega
      · rw [if_neg hend, List.forall_mem_cons, h24]
        simp
        omega
  · have hall : ¬ ∀ e ∈ elfMagic, field buf e.1.toNat 1 = e.2 := hmagic
    rw [if_pos hmagic]
    simp only [hall, hmagic, false_and, or_false]
    simp

/-! ## The log of a call -/

theorem processExec_of_context (hcontext : contextOf fs filename m = some c)
    (args : Option (List UInt8)) :
    processExec fs filename args m = execElf c.phys c.size args c.machine := by
  obtain ⟨⟨m₁, phys⟩, hfetch, rfl⟩ := Option.map_eq_some_iff.mp hcontext
  simp only [fetch] at hfetch
  split at hfetch
  · cases hfetch
  · rename_i hok
    obtain ⟨hsize, hroom⟩ := not_or.mp hok
    obtain ⟨⟨result, stores⟩, hread, hresult⟩ := Option.bind_eq_some_iff.mp hfetch
    simp only at hresult
    split at hresult
    · cases hresult
    · rename_i hpos
      simp only [Option.some_inj, Prod.mk.injEq] at hresult
      obtain ⟨rfl, rfl⟩ := hresult
      simp only [processExec, if_neg hsize, if_neg hroom, hread, if_neg hpos]
      rfl

/-- The loops only add to the log. -/
theorem loadHeaders_log (map : Word) (phoff : Word) (n i : ℕ) :
    (loadHeaders phys map phoff n i l).Yields (fun l' => ∀ e ∈ l.log, e ∈ l'.log)
      (fun _ l' => ∀ e ∈ l.log, e ∈ l'.log) := by
  refine loadHeaders_keeps (J := fun l' => ∀ e ∈ l.log, e ∈ l'.log) ?_ ?_ ?_ phoff n i l
    (fun e he => he)
  · intro l' offset n h e he
    exact List.mem_append_left _ (h e he)
  · intro seg j l' h
    exact (loadPage_log phys map seg j l').imp (fun l'' hlog e he => hlog e (h e he))
      (fun _ l'' hlog e he => hlog e (h e he))
  · exact fun _ h => h

theorem execElf_headerLog {m₁ : Machine} (h : Ready m₁ phys size) (args : Option (List UInt8)) :
    ∀ e ∈ headerLog (byteAt m₁.mem phys) size, e ∈ (execElf phys size args m₁).2.log := by
  have hpages := h.pages_pos
  have hheader := checkHeader_eq h.buffer.bytes (by omega) size []
  rw [List.nil_append, ← headerLog] at hheader
  intro e he
  simp only [execElf, hheader]
  cases headerResult (byteAt m₁.mem phys) size with
  | error exit => exact he
  | ok phoff' =>
      simp only
      split
      · exact he
      · have hlog := @loadHeaders_log phys
          ⟨(vmmNewPagemap m₁).2, headerLog (byteAt m₁.mem phys) size⟩
          (vmmNewPagemap m₁).1 phoff' 65536 0
        generalize loadHeaders phys (vmmNewPagemap m₁).1 phoff' 65536 0
          ⟨(vmmNewPagemap m₁).2, headerLog (byteAt m₁.mem phys) size⟩ = step at hlog
        cases step with
        | stop exit l =>
            have hmem := hlog e he
            cases exit <;> exact hmem
        | go l =>
            have hmem : e ∈ l.log := hlog e he
            simp only [enter]
            split
            · exact hmem
            · exact List.mem_append_left _ (List.mem_append_left _ hmem)

/-! ## Whole calls -/

/-- All accesses are logged below the limit of the lower half. -/
theorem Loaded.logged {exit : Option ExecExit} (h : Loaded c exit l)
    (hlow : ∀ s ∈ c.reached, s.vaddr.toNat < 2 ^ 47) : Logged c c.reached l.log := by
  cases h with
  | high exit l before v hmap hv hreached hcopies =>
      exact (not_high hlow hreached).elim
  | faults l hlogged hfaults => exact hlogged
  | starved exit l pages S hexit hstarves hlogged before v hmap hzero hstarved => exact hlogged
  | full l pages S hstarves hmore hlogged hfull hp => exact hlogged
  | complete l pages S hstarves hall hleft hlogged hp => exact hlogged

/-- The copies of the pages that are reached are logged in any case. -/
theorem Loaded.copies {exit : Option ExecExit} (h : Loaded c exit l) :
    ∀ s ∈ c.reached, ∀ e ∈ s.copyEvents, e ∈ l.log := by
  have hlogged : Logged c c.reached l.log → ∀ s ∈ c.reached, ∀ e ∈ s.copyEvents, e ∈ l.log := by
    intro hlogged s hs e he
    obtain ⟨offset, n, rfl⟩ := mem_copyEvents he
    exact (hlogged.copies offset n).mpr ⟨s, hs, he⟩
  cases h with
  | high exit l before v hmap hv hreached hcopies => exact hcopies
  | faults l hl hfaults => exact hlogged hl
  | starved exit l pages S hexit hstarves hl before v hmap hzero hstarved => exact hlogged hl
  | full l pages S hstarves hmore hl hfull hp => exact hlogged hl
  | complete l pages S hstarves hall hleft hl hp => exact hlogged hl

/-- In a file that is as long as its ELF header only the copies can go wrong. -/
theorem Logged.inFile {done : List SegPage} {log : List Event} (h : Logged c done log)
    (hlong : 58 ≤ c.size) (hsize : c.size < 2 ^ 32) (hreads : ∀ s ∈ done, s.readsBelow c.size) :
    ∀ e ∈ log, e.inFile c.size := by
  have hshort : ∀ r ∈ headerFields, r.1.toNat + r.2 ≤ 58 := by decide
  intro e he
  cases e with
  | field offset n =>
      refine (reads_below_iff hsize).mpr (.inr ?_)
      rcases h.fields offset n he with hin | hheader
      · exact hin
      · exact (hshort _ hheader).trans hlong
  | copy offset n =>
      obtain ⟨s, hs, hcopy⟩ := (h.copies offset n).mp he
      exact (SegPage.copyEvents_inFile_iff hsize).mpr (hreads s hs) _ hcopy
  | map before map vaddr => trivial

/-- The file is long enough for its header, and the segments that are loaded lie in it. -/
def ReadsFile (fs : Files) (filename : List UInt8) (m : Machine) : Prop :=
  ∀ c, contextOf fs filename m = some c → HeaderInFile c.buf c.size ∧
    (HeaderAccepted c.buf c.size → ∀ s ∈ c.reached, s.readsBelow c.size)

/-- A file that is accepted and long enough for its header is as long as that. -/
theorem HeaderInFile.long (h : HeaderInFile buf size) (haccepted : HeaderAccepted buf size) :
    58 ≤ size := by
  rcases h with ⟨e, he, _, hne⟩ | ⟨_, _, hphoff | hlong⟩
  · exact (hne (haccepted.magic e he)).elim
  · have := haccepted.phoff_lt
    omega
  · exact hlong

section Elf

variable {m₁ : Machine} {args : Option (List UInt8)} {r : ExecExit × Loader}
  (hcall : ElfCall m₁ phys size args r) (hsize : size < 2 ^ 32)

include hcall hsize

theorem ElfCall.reads_of_inFile (hheader : HeaderInFile (byteAt m₁.mem phys) size)
    (hlow : HeaderAccepted (byteAt m₁.mem phys) size →
      ∀ s ∈ (Context.of m₁ phys size).reached, s.vaddr.toNat < 2 ^ 47)
    (hreads : HeaderAccepted (byteAt m₁.mem phys) size →
      ∀ s ∈ (Context.of m₁ phys size).reached, s.readsBelow size) :
    ∀ e ∈ r.2.log, e.inFile size := by
  have hchecks := (headerLog_inFile_iff hsize).mpr hheader
  cases hcall with
  | rejected exit hresult => exact hchecks
  | noPagemap haccepted hfull => exact hchecks
  | stopped exit l hexit haccepted hc hpos hloaded =>
      exact (hloaded.logged (hlow haccepted)).inFile (hheader.long haccepted) hsize
        (hreads haccepted)
  | faulted l haccepted hc hpos hloaded =>
      exact (hloaded.logged (hlow haccepted)).inFile (hheader.long haccepted) hsize
        (hreads haccepted)
  | entering l haccepted hc hpos hloaded =>
      have hlong := hheader.long haccepted
      have hlog := (hloaded.logged (hlow haccepted)).inFile hlong hsize (hreads haccepted)
      simp only [enter]
      split
      · exact hlog
      · simp only [Loader.field, List.forall_mem_append, List.forall_mem_singleton]
        refine ⟨⟨hlog, trivial⟩, (field_inFile_iff hsize _ (by decide)).mpr ?_⟩
        exact (by decide : (24#64 : Word).toNat + 8 ≤ 58).trans hlong

theorem ElfCall.copies_of_inFile (hinside : ∀ e ∈ r.2.log, e.inFile size)
    (haccepted : HeaderAccepted (byteAt m₁.mem phys) size) :
    ∀ s ∈ (Context.of m₁ phys size).reached, s.readsBelow size := by
  have hreads : ∀ (exit : Option ExecExit) (l : Loader),
      Loaded (Context.of m₁ phys size) exit l → (∀ e ∈ l.log, e ∈ r.2.log) →
      ∀ s ∈ (Context.of m₁ phys size).reached, s.readsBelow size := by
    intro exit l hloaded hsub s hs
    refine (SegPage.copyEvents_inFile_iff hsize).mp fun e he => ?_
    exact hinside e (hsub e (hloaded.copies s hs e he))
  cases hcall with
  | rejected exit hresult => exact ((headerResult_error hresult).1 haccepted).elim
  | noPagemap _ hfull =>
      have hfree : (Context.of m₁ phys size).free = 0 := by
        rw [Context.free, Context.of_machine, hfull]
      rw [Context.reached, reached_full hfree]
      simp
  | stopped exit l hexit _ hc hpos hloaded => exact hreads _ l hloaded (fun e he => he)
  | faulted l _ hc hpos hloaded => exact hreads _ l hloaded (fun e he => he)
  | entering l _ hc hpos hloaded =>
      refine hreads _ l hloaded fun e he => ?_
      simp only [enter]
      split
      · exact he
      · exact List.mem_append_left _ (List.mem_append_left _ he)

end Elf

/-- The accesses of a call to the file buffer stay in the file only if the file is long
enough for its header and for the segments that are loaded, and they do if moreover these
lie in the lower half. -/
theorem exec_reads_file (fs : Files) (filename : List UInt8) (args : Option (List UInt8))
    (m : Machine) (hzero : bitmapTest m.pmm.bitmap 0 = true) :
    ((∀ e ∈ (processExec fs filename args m).2.log, e.inFile (fileSize fs filename).1) →
        ReadsFile fs filename m) ∧
      (LoadsLow fs filename m ∧ ReadsFile fs filename m →
        ∀ e ∈ (processExec fs filename args m).2.log, e.inFile (fileSize fs filename).1) := by
  have hsize := fileSize_lt fs filename
  have hcall := processExec_call fs filename args m hzero
  have helf := fun c (h : contextOf fs filename m = some c) => processExec_of_context h args
  generalize processExec fs filename args m = r at hcall helf
  cases hcall with
  | early exit hexit hfetch =>
      refine ⟨fun _ c hcontext => ?_, by simp⟩
      simp [contextOf, hfetch] at hcontext
  | hangs m' hfetch hread hmem =>
      refine ⟨fun _ c hcontext => ?_, by simp⟩
      simp [contextOf, hfetch] at hcontext
  | readFailed m₁ phys i hfetch hfetched hfilled =>
      refine ⟨fun _ c hcontext => ?_, by simp⟩
      simp [contextOf, hfetch] at hcontext
  | elf m₁ phys i hfetch hfetched hfilled r hcall =>
      have hcontext : contextOf fs filename m =
          some (Context.of m₁ phys (fileSize fs filename).1) := by
        rw [contextOf, hfetch, Option.map_some]
      constructor
      · intro hinside c hc
        rw [hcontext] at hc
        obtain rfl := Option.some_inj.mp hc
        refine ⟨(headerLog_inFile_iff hsize).mp fun e he => hinside e ?_,
          hcall.copies_of_inFile hsize hinside⟩
        rw [helf _ hcontext]
        exact execElf_headerLog (hfetched.ready hzero) args e he
      · rintro ⟨hlow, hreads⟩
        obtain ⟨hheader, hcopies⟩ := hreads _ hcontext
        exact hcall.reads_of_inFile hsize hheader (hlow _ hcontext) hcopies

/-! ## A file of four bytes -/

/-- The magic bytes alone. -/
def magicFile : List UInt8 := [0x7F, 0x45, 0x4C, 0x46]

theorem magicFile_delivers : Delivers (sampleFiles magicFile) [0x61] magicFile :=
  sample_delivers (by decide +kernel) (by decide) (by decide)

end LispDos.Process
