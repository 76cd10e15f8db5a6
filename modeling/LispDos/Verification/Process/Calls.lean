import LispDos.Verification.Fat16.Directory
import LispDos.Verification.Memory.Returns
import LispDos.Verification.Process.Outcomes

/-! # Whole calls of `process_exec`

The checks of the ELF header as functions of the file, and the ways in which a call ends
once the file is in its buffer. -/

namespace LispDos.Process

open Memory Foundation

variable {m : Machine} {phys : Word} {size limit : ℕ} {buf : ℕ → UInt8} {l : Loader}
  {log : List Event}

/-! ## The header -/

/-- The end of the program headers as it is computed. -/
def tableEnd (buf : ℕ → UInt8) : ℕ := (phoff buf + phnum buf * 56#64).toNat

/-- The bytes that are compared, up to the first that differs. -/
def magicReads (buf : ℕ → UInt8) : List (Word × Word) → List (Word × ℕ)
  | [] => []
  | e :: rest =>
      (e.1, 1) :: if field buf e.1.toNat 1 = e.2 then magicReads buf rest else []

/-- The fields that the checks of the header read. -/
def headerReads (buf : ℕ → UInt8) (size : ℕ) : List (Word × ℕ) :=
  magicReads buf elfMagic ++
    if ¬ Magic buf then []
    else (32#64, 8) ::
      if size ≤ (phoff buf).toNat then []
      else (56#64, 2) ::
        if size < tableEnd buf then [] else [(24#64, 8)]

/-- The result of the checks. -/
def headerResult (buf : ℕ → UInt8) (size : ℕ) : Except ExecExit Word :=
  if ¬ Magic buf then .error .badMagic
  else if size ≤ (phoff buf).toNat then .error .badPhdr
  else if size < tableEnd buf then .error .badPhdr
  else if userLimit ≤ entryPoint buf then .error .badEntry
  else .ok (phoff buf)

section Header

variable (hbuf : ∀ k < limit, byteAt m.mem phys k = buf k) (hlimit : 4096 ≤ limit)

include hbuf hlimit

theorem field_eq (offset : Word) (n : ℕ) (h : offset.toNat + n ≤ 4096) (log : List Event) :
    Loader.field ⟨m, log⟩ phys offset n =
      (field buf offset.toNat n, ⟨m, log ++ [.field offset n]⟩) :=
  Prod.ext (field_fst (l := ⟨m, log⟩) hbuf offset n (h.trans hlimit)) rfl

theorem checkMagic_eq (magic : List (Word × Word)) (hsmall : ∀ e ∈ magic, e.1.toNat < 4096)
    (log : List Event) :
    checkMagic phys magic ⟨m, log⟩ = (magic.all fun e => field buf e.1.toNat 1 = e.2,
      ⟨m, log ++ (magicReads buf magic).map fun r => .field r.1 r.2⟩) := by
  induction magic generalizing log with
  | nil => simp [checkMagic, magicReads]
  | cons e magic ih =>
      obtain ⟨hhead, htail⟩ := List.forall_mem_cons.mp hsmall
      obtain ⟨offset, c⟩ := e
      have hread := field_eq hbuf hlimit offset 1 (Nat.succ_le_of_lt hhead) log
      simp only [checkMagic, hread, magicReads]
      by_cases hmatch : field buf offset.toNat 1 = c
      · rw [if_pos hmatch, if_pos hmatch, ih htail]
        simp [hmatch]
      · rw [if_neg hmatch, if_neg hmatch]
        simp [hmatch]

theorem checkHeader_eq (size : ℕ) (log : List Event) :
    checkHeader phys size ⟨m, log⟩ = (headerResult buf size,
      ⟨m, log ++ (headerReads buf size).map fun r => .field r.1 r.2⟩) := by
  have hmagic := checkMagic_eq hbuf hlimit elfMagic
    (fun e he => (elfMagic_lt e he).trans (by decide)) log
  have hall : elfMagic.all (fun e => field buf e.1.toNat 1 = e.2) = decide (Magic buf) := by
    rw [Bool.eq_iff_iff]
    simp [Magic]
  have hfield := fun {offset n} (h : offset.toNat + n ≤ 4096) log =>
    field_eq hbuf hlimit offset n h log
  have h32 : field buf (32#64 : Word).toNat 8 = phoff buf := rfl
  have h56 : field buf (56#64 : Word).toNat 2 = phnum buf := rfl
  have h24 : field buf (24#64 : Word).toNat 8 = entryPoint buf := rfl
  have hend : (phoff buf + phnum buf * 56#64).toNat = tableEnd buf := rfl
  simp only [checkHeader, hmagic, hall, hfield (show (32#64 : Word).toNat + 8 ≤ 4096 by decide),
    hfield (show (56#64 : Word).toNat + 2 ≤ 4096 by decide),
    hfield (show (24#64 : Word).toNat + 8 ≤ 4096 by decide), h32, h56, h24, hend,
    headerResult, headerReads, decide_eq_false_iff_not]
  by_cases h₁ : Magic buf
  · rw [if_neg (not_not.mpr h₁), if_neg (not_not.mpr h₁), if_neg (not_not.mpr h₁)]
    by_cases h₂ : size ≤ (phoff buf).toNat
    · simp [h₂]
    · by_cases h₃ : size < tableEnd buf
      · simp [h₂, h₃]
      · by_cases h₄ : userLimit ≤ entryPoint buf
        · simp [h₂, h₃, h₄]
        · simp [h₂, h₃, h₄]
  · rw [if_pos h₁, if_pos h₁, if_pos h₁, List.append_nil]

end Header

/-! ## The file in its buffer -/

/-- The file has been read into a row of pages that are in use. -/
structure Ready (m₁ : Machine) (phys : Word) (size : ℕ) : Prop where
  zero : bitmapTest m₁.pmm.bitmap 0 = true
  row : ∃ i, 0 < i ∧ phys = pageAddr i ∧ i + filePages size ≤ 2 ^ 40 ∧
    ∀ j, i ≤ j → j < i + filePages size → bitmapTest m₁.pmm.bitmap j = true
  size_le : size ≤ 4096 * filePages size
  size_lt : size < 2 ^ 32
  pages_pos : 0 < filePages size

theorem Ready.buffer {m₁ : Machine} (h : Ready m₁ phys size) :
    Buffer m₁ phys (4096 * filePages size) (byteAt m₁.mem phys) := by
  obtain ⟨i, hi, rfl, hbound, hused⟩ := h.row
  have hpage : ∀ k < 4096 * filePages size,
      (pageAddr i + BitVec.ofNat 64 k).toNat / 4096 = i + k / 4096 := by
    intro k hk
    have haddr := pageAddr_toNat (i := i) (by omega)
    rw [toNat_add_ofNat (by omega), haddr]
    omega
  refine ⟨fun _ _ => rfl, ?_, ?_⟩
  · intro k hk
    rw [hpage k hk]
    exact hused _ (by omega) (by omega)
  · intro k hk
    rw [hpage k hk]
    omega

/-- The context in which a file is loaded. -/
def Context.of (m₁ : Machine) (phys : Word) (size : ℕ) : Context :=
  ⟨m₁, phys, size, byteAt m₁.mem phys, (vmmNewPagemap m₁).1.toNat / 4096⟩

section Of

variable (m₁ : Machine) (phys : Word) (size : ℕ)

@[simp] theorem Context.of_machine : (Context.of m₁ phys size).machine = m₁ := rfl

@[simp] theorem Context.of_phys : (Context.of m₁ phys size).phys = phys := rfl

@[simp] theorem Context.of_size : (Context.of m₁ phys size).size = size := rfl

@[simp] theorem Context.of_buf : (Context.of m₁ phys size).buf = byteAt m₁.mem phys := rfl

end Of

/-- The log after the checks of the header. -/
def headerLog (buf : ℕ → UInt8) (size : ℕ) : List Event :=
  (headerReads buf size).map fun r => .field r.1 r.2

theorem headerReads_sub (buf : ℕ → UInt8) (size : ℕ) :
    ∀ r ∈ headerReads buf size, r ∈ headerFields := by
  have hmagic : ∀ magic : List (Word × Word), ∀ r ∈ magicReads buf magic,
      ∃ e ∈ magic, r = (e.1, 1) := by
    intro magic
    induction magic with
    | nil => simp [magicReads]
    | cons e magic ih =>
        intro r hr
        rw [magicReads] at hr
        rcases List.mem_cons.mp hr with rfl | hr
        · exact ⟨e, by simp, rfl⟩
        · split at hr
          · obtain ⟨e', he', hre⟩ := ih r hr
            exact ⟨e', by simp [he'], hre⟩
          · cases hr
  have hsmall : ∀ e ∈ elfMagic, (e.1, 1) ∈ headerFields := by simp [elfMagic, headerFields]
  intro r hr
  rw [headerReads] at hr
  rcases List.mem_append.mp hr with hr | hr
  · obtain ⟨e, he, rfl⟩ := hmagic elfMagic r hr
    exact hsmall e he
  · have hrest : r ∈ [((32#64 : Word), 8), (56#64, 2), (24#64, 8)] := by
      clear hmagic hsmall
      split_ifs at hr
      · simp only [List.mem_cons] at hr ⊢
        tauto
      · simp only [List.mem_cons] at hr ⊢
        tauto
      · exact hr
      · cases hr
    have hlast : ∀ r ∈ [((32#64 : Word), 8), (56#64, 2), (24#64, 8)], r ∈ headerFields := by
      decide
    exact hlast r hrest

theorem logged_headerLog (c : Context) : Logged c [] (headerLog c.buf c.size) := by
  refine ⟨?_, ?_, ?_, by simp, by simp [headerLog]⟩
  · intro offset n hmem
    obtain ⟨r, hr, heq⟩ := List.mem_map.mp hmem
    obtain ⟨rfl, rfl⟩ : r.1 = offset ∧ r.2 = n := by simpa using heq
    exact .inr (headerReads_sub c.buf c.size r hr)
  · intro offset n
    simp [headerLog]
  · intro before map v hmem
    simp [headerLog] at hmem

/-- The checks of the header that a file has to pass. -/
structure HeaderAccepted (buf : ℕ → UInt8) (size : ℕ) : Prop where
  magic : Magic buf
  phoff_lt : (phoff buf).toNat < size
  tableEnd_le : tableEnd buf ≤ size
  entry_lt : entryPoint buf < userLimit

theorem headerResult_accepted (h : HeaderAccepted buf size) :
    headerResult buf size = .ok (phoff buf) := by
  rw [headerResult, if_neg (not_not.mpr h.magic), if_neg (Nat.not_le.mpr h.phoff_lt),
    if_neg (Nat.not_lt.mpr h.tableEnd_le), if_neg (BitVec.not_le.mpr h.entry_lt)]

theorem headerResult_error {exit : ExecExit} (h : headerResult buf size = .error exit) :
    ¬ HeaderAccepted buf size ∧ (exit = .badMagic ∨ exit = .badPhdr ∨ exit = .badEntry) := by
  refine ⟨?_, ?_⟩
  · intro haccepted
    rw [headerResult_accepted haccepted] at h
    cases h
  · rw [headerResult] at h
    split_ifs at h
    all_goals
      obtain rfl := Except.error.inj h
      simp

/-- A file that has passed the checks. -/
theorem headerResult_ok {phoff' : Word} (h : headerResult buf size = .ok phoff')
    (hsize : size < 2 ^ 32) :
    phoff' = phoff buf ∧ HeaderAccepted buf size ∧
      (phoff buf).toNat + 56 * (phnum buf).toNat ≤ size := by
  have hphnum : (phnum buf).toNat < 2 ^ (8 * 2) := leField_lt _ (by decide)
  rw [headerResult] at h
  split_ifs at h with h₁ h₂ h₃ h₄
  refine ⟨(Except.ok.inj h).symm, ⟨h₁, by omega, by omega, BitVec.not_le.mp h₄⟩, ?_⟩
  have hend : tableEnd buf = (phoff buf).toNat + 56 * (phnum buf).toNat := by
    rw [tableEnd, BitVec.toNat_add, BitVec.toNat_mul]
    have hconst : (56#64 : Word).toNat = 56 := rfl
    rw [hconst]
    omega
  omega

theorem Ready.accepted {m₁ : Machine} (h : Ready m₁ phys size) {phoff' : Word}
    (hheader : headerResult (byteAt m₁.mem phys) size = .ok phoff')
    (hok : (vmmNewPagemap m₁).1 ≠ 0#64) :
    (Context.of m₁ phys size).Accepted ∧
      (vmmNewPagemap m₁).1 = (Context.of m₁ phys size).map := by
  obtain ⟨n, _, hn, haddr, _, _, _⟩ := Half.new h.zero hok
  obtain ⟨_, _, htable⟩ := headerResult_ok hheader h.size_lt
  have hdiv : (vmmNewPagemap m₁).1.toNat / 4096 = n := by
    rw [haddr, pageAddr_div (hn.trans (by decide))]
  have hpos := h.pages_pos
  refine ⟨⟨h.buffer, h.size_le, h.size_lt, ?_, htable, h.zero, ?_⟩, ?_⟩
  · simp only [Context.limit, Context.of]
    omega
  · simp only [Context.of, hdiv]
    exact hn
  · simp only [Context.map, Context.of, hdiv]
    exact haddr

/-! ## The ways in which a call ends -/

/-- The ends of the call after the file has been read. -/
inductive ElfCall (m₁ : Machine) (phys : Word) (size : ℕ) (args : Option (List UInt8)) :
    ExecExit × Loader → Prop where
  | rejected (exit : ExecExit)
      (hheader : headerResult (byteAt m₁.mem phys) size = .error exit) :
      ElfCall m₁ phys size args
        (exit, ⟨freeFile phys (filePages size) m₁, headerLog (byteAt m₁.mem phys) size⟩)
  | noPagemap (hheader : HeaderAccepted (byteAt m₁.mem phys) size)
      (hfull : freePages m₁ = 0) :
      ElfCall m₁ phys size args
        (.noPagemap, ⟨freeFile phys (filePages size) m₁, headerLog (byteAt m₁.mem phys) size⟩)
  | stopped (exit : ExecExit) (l : Loader) (hexit : exit ≠ .copyFaults)
      (hheader : HeaderAccepted (byteAt m₁.mem phys) size)
      (hc : (Context.of m₁ phys size).Accepted) (hpos : 0 < freePages m₁)
      (hloaded : Loaded (Context.of m₁ phys size) (some exit) l) :
      ElfCall m₁ phys size args (exit, { l with
        machine := vmmFreePagemap (freeFile phys (filePages size) l.machine)
          (Context.of m₁ phys size).map })
  | faulted (l : Loader) (hheader : HeaderAccepted (byteAt m₁.mem phys) size)
      (hc : (Context.of m₁ phys size).Accepted) (hpos : 0 < freePages m₁)
      (hloaded : Loaded (Context.of m₁ phys size) (some .copyFaults) l) :
      ElfCall m₁ phys size args (.copyFaults, l)
  | entering (l : Loader) (hheader : HeaderAccepted (byteAt m₁.mem phys) size)
      (hc : (Context.of m₁ phys size).Accepted) (hpos : 0 < freePages m₁)
      (hloaded : Loaded (Context.of m₁ phys size) none l) :
      ElfCall m₁ phys size args
        (enter phys (filePages size) (Context.of m₁ phys size).map args l)

theorem vmmNewPagemap_full (hzero : bitmapTest m.pmm.bitmap 0 = true)
    (h : (vmmNewPagemap m).1 = 0#64) : freePages m = 0 ∧ (vmmNewPagemap m).2 = m := by
  obtain ⟨hfail, hsame, hfull⟩ | ⟨n, _, _, _, hok, _, _⟩ := m.allocPage_cases hzero
  · refine ⟨hfull, ?_⟩
    simp only [vmmNewPagemap, if_pos hfail, hsame]
  · simp only [vmmNewPagemap, if_neg hok] at h
    exact (hok h).elim

theorem execElf_call {m₁ : Machine} (h : Ready m₁ phys size) (args : Option (List UInt8)) :
    ElfCall m₁ phys size args (execElf phys size args m₁) := by
  have hpages := h.pages_pos
  have hheader := checkHeader_eq h.buffer.bytes (by omega) size []
  rw [List.nil_append] at hheader
  simp only [execElf, hheader]
  cases hresult : headerResult (byteAt m₁.mem phys) size with
  | error exit => exact .rejected exit hresult
  | ok phoff' =>
      obtain ⟨hphoff, haccepted, _⟩ := headerResult_ok hresult h.size_lt
      simp only
      by_cases hmap : (vmmNewPagemap m₁).1 = 0#64
      · obtain ⟨hfull, hsame⟩ := vmmNewPagemap_full h.zero hmap
        rw [if_pos hmap, hsame]
        exact .noPagemap haccepted hfull
      · rw [if_neg hmap]
        obtain ⟨hc, haddr⟩ := h.accepted hresult hmap
        obtain ⟨_, _, _, _, _, _, hleft⟩ := Half.new h.zero hmap
        have hstart := Loading.start (c := Context.of m₁ phys size) hc.zero hmap haddr hc.root_lt
          (logged_headerLog _)
        rw [hphoff, haddr]
        have hyields := loadHeaders_loaded hc hstart
        simp only [Context.of_machine, Context.of_phys, Context.of_size, Context.of_buf,
          headerLog] at hyields
        generalize loadHeaders phys (Context.of m₁ phys size).map (phoff (byteAt m₁.mem phys))
          65536 0 ⟨(vmmNewPagemap m₁).2, (headerReads (byteAt m₁.mem phys) size).map
            fun r => .field r.1 r.2⟩ = step at hyields ⊢
        have hpos : 0 < freePages m₁ := by omega
        cases step with
        | go l => exact .entering l haccepted hc hpos hyields
        | stop exit l =>
            cases exit
            case copyFaults => exact .faulted l haccepted hc hpos hyields
            all_goals exact .stopped _ l (by simp) haccepted hc hpos hyields

/-! ## The file buffer -/

/-- The number of pages of a buffer that can be allocated is not cut off. -/
theorem filePages_bounds (hsize : size < 2 ^ 32) :
    filePages size < 2 ^ 20 ∧ (0 < filePages size → size ≤ 4096 * filePages size) := by
  rw [filePages]
  omega

/-- The call as far as the file buffer goes: the file on the pages `i` to `i + n`. -/
structure Fetched (m m₁ : Machine) (phys : Word) (size i : ℕ) : Prop where
  pos : 0 < i
  addr : phys = pageAddr i
  bound : i + filePages size ≤ 2 ^ 40
  took : Took m.pmm m₁.pmm (List.range' i (filePages size))
  left : freePages m₁ + filePages size = freePages m
  kernel : m₁.kernelPml4 = m.kernelPml4
  pages_pos : 0 < filePages size
  size_lt : size < 2 ^ 32

theorem Fetched.ready {m m₁ : Machine} {i : ℕ} (h : Fetched m m₁ phys size i)
    (hzero : bitmapTest m.pmm.bitmap 0 = true) : Ready m₁ phys size := by
  obtain ⟨_, hle⟩ := filePages_bounds h.size_lt
  refine ⟨?_, ⟨i, h.pos, h.addr, h.bound, ?_⟩, hle h.pages_pos, h.size_lt, h.pages_pos⟩
  · rw [h.took.bits, hzero, Bool.or_true]
  · intro j hj hj'
    rw [h.took.bits, decide_eq_true (List.mem_range'_1.mpr ⟨hj, hj'⟩), Bool.true_or]

/-- The allocation of the buffer, whatever is read into it. -/
theorem bufferCases (hzero : bitmapTest m.pmm.bitmap 0 = true) (hsize : size < 2 ^ 32) :
    let buf := m.allocPages (BitVec.ofNat 64 (filePages size))
    (buf.1 = 0#64 ∧ buf.2 = m) ∨
      (buf.1 ≠ 0#64 ∧ ∃ i, ∀ mem, Fetched m { buf.2 with mem := mem } buf.1 size i) := by
  obtain ⟨hbound, _⟩ := filePages_bounds hsize
  have hcount : (BitVec.ofNat 64 (filePages size)).toNat = filePages size := by
    rw [BitVec.toNat_ofNat, Nat.mod_eq_of_lt (hbound.trans (by decide))]
  obtain ⟨hfail, hsame⟩ | ⟨i, hi, haddr, hok, hpos, htop, takes⟩ :=
    m.allocPages_cases hzero (BitVec.ofNat 64 (filePages size))
  · exact .inl ⟨hfail, hsame⟩
  · rw [hcount] at hpos htop takes
    have hleft := card_clearPages_take takes.bits takes.clear
    rw [Nat.card_Ico, Nat.add_sub_cancel_left, ← takes.highest] at hleft
    refine .inr ⟨hok, i, fun mem => ⟨hi, haddr, htop, Took.of_row takes, ?_, rfl, hpos, hsize⟩⟩
    rw [freePages, freePages, ← takes.highest]
    exact hleft

theorem fileSize_lt (fs : Files) (filename : List UInt8) : (fileSize fs filename).1 < 2 ^ 32 := by
  simp only [fileSize]
  split
  · exact Nat.mod_lt _ (by decide)
  · exact Fat16.fat16GetFileSize_lt _ _ _

/-- The machine once the file is in its buffer, and the address of the buffer. -/
def fetch (fs : Files) (filename : List UInt8) (m : Machine) : Option (Machine × Word) :=
  let file := fileSize fs filename
  let buf := m.allocPages (BitVec.ofNat 64 (filePages file.1))
  if file.1 = 0 ∨ buf.1 = 0#64 then none
  else
    (readFile fs filename file.2).bind fun r =>
      if r.1 ≤ 0 then none else some ({ buf.2 with mem := storeAt buf.2.mem buf.1 r.2 }, buf.1)

/-- The context of a call that has its file in the buffer. -/
def contextOf (fs : Files) (filename : List UInt8) (m : Machine) : Option Context :=
  (fetch fs filename m).map fun r => Context.of r.1 r.2 (fileSize fs filename).1

/-- If the file of the call is accepted, the pages that the loader maps lie below the limit of
the lower half. -/
def LoadsLow (fs : Files) (filename : List UInt8) (m : Machine) : Prop :=
  ∀ c, contextOf fs filename m = some c → HeaderAccepted c.buf c.size →
    ∀ s ∈ c.reached, s.vaddr.toNat < 2 ^ 47

/-- The buffer has been filled by the read function. -/
def Filled (fs : Files) (filename : List UInt8) (m m₁ : Machine) (phys : Word) : Prop :=
  ∃ result stores, readFile fs filename (fileSize fs filename).2 = some (result, stores) ∧
    m₁.mem = storeAt m.mem phys stores

/-- The ends of a call. -/
inductive ExecCall (fs : Files) (filename : List UInt8) (args : Option (List UInt8))
    (m : Machine) : ExecExit × Loader → Prop where
  | early (exit : ExecExit) (hexit : exit = .notFound ∨ exit = .noFileMemory)
      (hfetch : fetch fs filename m = none) : ExecCall fs filename args m (exit, ⟨m, []⟩)
  | hangs (m' : Machine) (hfetch : fetch fs filename m = none)
      (hread : readFile fs filename (fileSize fs filename).2 = none) (hmem : m'.mem = m.mem) :
      ExecCall fs filename args m (.readHangs, ⟨m', []⟩)
  | readFailed (m₁ : Machine) (phys : Word) (i : ℕ) (hfetch : fetch fs filename m = none)
      (hfetched : Fetched m m₁ phys (fileSize fs filename).1 i)
      (hfilled : Filled fs filename m m₁ phys) :
      ExecCall fs filename args m
        (.readFailed, ⟨freeFile phys (filePages (fileSize fs filename).1) m₁, []⟩)
  | elf (m₁ : Machine) (phys : Word) (i : ℕ) (hfetch : fetch fs filename m = some (m₁, phys))
      (hfetched : Fetched m m₁ phys (fileSize fs filename).1 i)
      (hfilled : Filled fs filename m m₁ phys) (r : ExecExit × Loader)
      (hcall : ElfCall m₁ phys (fileSize fs filename).1 args r) :
      ExecCall fs filename args m r

theorem processExec_call (fs : Files) (filename : List UInt8) (args : Option (List UInt8))
    (m : Machine) (hzero : bitmapTest m.pmm.bitmap 0 = true) :
    ExecCall fs filename args m (processExec fs filename args m) := by
  have hlt := fileSize_lt fs filename
  by_cases hsize : (fileSize fs filename).1 = 0
  · have hfetch : fetch fs filename m = none := by simp only [fetch, hsize, true_or, if_true]
    simp only [processExec, if_pos hsize]
    exact .early _ (.inl rfl) hfetch
  · have hcases := bufferCases hzero hlt
    simp only [processExec, if_neg hsize]
    have hmem := m.allocPages_mem (BitVec.ofNat 64 (filePages (fileSize fs filename).1))
    generalize hbuf : m.allocPages (BitVec.ofNat 64 (filePages (fileSize fs filename).1)) = buf
      at hcases hmem ⊢
    obtain ⟨hfail, hsame⟩ | ⟨hok, i, hfetched⟩ := hcases
    · have hfetch : fetch fs filename m = none := by
        simp only [fetch, hbuf, hfail, or_true, if_true]
      simp only [if_pos hfail, hsame]
      exact .early _ (.inr rfl) hfetch
    · simp only [if_neg hok]
      cases hread : readFile fs filename (fileSize fs filename).2 with
      | none =>
          have hfetch : fetch fs filename m = none := by
            simp only [fetch, hread, Option.bind_none, ite_self]
          exact .hangs _ hfetch hread hmem
      | some r =>
          obtain ⟨bytesRead, stores⟩ := r
          have hfilled : Filled fs filename m
              { buf.2 with mem := storeAt buf.2.mem buf.1 stores } buf.1 :=
            ⟨bytesRead, stores, hread, congrArg (storeAt · buf.1 stores) hmem⟩
          simp only
          by_cases hbytes : bytesRead ≤ 0
          · have hfetch : fetch fs filename m = none := by
              simp only [fetch, hread, Option.bind_some, if_pos hbytes, ite_self]
            rw [if_pos hbytes]
            exact .readFailed _ _ i hfetch (hfetched _) hfilled
          · have hfetch : fetch fs filename m =
                some ({ buf.2 with mem := storeAt buf.2.mem buf.1 stores }, buf.1) := by
              simp only [fetch, hbuf, hread, Option.bind_some, if_neg hbytes, hsize, hok, or_self,
                if_false]
            rw [if_neg hbytes]
            exact .elf _ _ i hfetch (hfetched _) hfilled _ (execElf_call ((hfetched _).ready hzero) args)

end LispDos.Process
