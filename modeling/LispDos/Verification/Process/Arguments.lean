import LispDos.Verification.Process.StaleMemory
import LispDos.Verification.Syscall.StringCheck

/-! # The argument pointer

`process_exec` passes one value both as the stack pointer and as the pointer to the
arguments. With a string of the shell it is the address of the copy at the end of the stack
page; without one it is the end of that page, which is no address of a string. -/

namespace LispDos.Process

open Memory Foundation

variable {fs : Files} {filename : List UInt8} {m m₁ m' : Machine} {c : Context} {l : Loader}
  {mem : PhysMem} {root n t : ℕ} {pages S : List ℕ} {done : List SegPage} {v : Word}
  {a : List UInt8} {args : Option (List UInt8)}

/-! ## Checked pages -/

/-- The table with which the checks of `vmm.c` go on. -/
def checkedTable (e : Word) : Option ℕ := if userEntry e then some (tableOf e) else none

theorem userEntry_tableEntry (hn : n < 2 ^ 40) : userEntry (tableEntry n) = true := by
  rw [userEntry, present_tableEntry (hn.trans (by decide)), user_tableEntry hn, Bool.and_self]

theorem followsTables_checked : FollowsTables checkedTable := by
  constructor
  · intro n hn
    rw [checkedTable, if_pos (userEntry_tableEntry hn), tableOf_tableEntry (hn.trans (by decide))]
  · intro e he
    rw [checkedTable, userEntry, he, Bool.false_and]
    rfl

theorem checkedTable_eq_some {e : Word} (h : checkedTable e = some t) :
    userEntry e = true ∧ tableOf e = t := by
  rw [checkedTable] at h
  split_ifs at h with he
  exact ⟨he, Option.some_inj.mp h⟩

/-- A page whose tables the checks go through. -/
theorem userPage_of_descend (hv : v.toNat < 2 ^ 47)
    (hlead : descend checkedTable mem root (tablePath v) = some t)
    (hentry : userEntry (mem t (tableIndex v 12)) = true) : UserPage mem root v := by
  obtain ⟨t₁, h₁, hlead⟩ := Option.bind_eq_some_iff.mp hlead
  obtain ⟨t₂, h₂, hlead⟩ := Option.bind_eq_some_iff.mp hlead
  obtain ⟨t₃, h₃, hlead⟩ := Option.bind_eq_some_iff.mp hlead
  obtain rfl := Option.some_inj.mp hlead
  obtain ⟨he₁, rfl⟩ := checkedTable_eq_some h₁
  obtain ⟨he₂, rfl⟩ := checkedTable_eq_some h₂
  obtain ⟨he₃, rfl⟩ := checkedTable_eq_some h₃
  refine ⟨hv, ?_⟩
  simp only [levelEntries, List.forall_mem_cons, List.not_mem_nil, false_imp_iff, implies_true,
    and_true]
  simp only [userEntry, Bool.and_eq_true] at he₁ he₂ he₃ hentry
  exact ⟨he₁, he₂, he₃, hentry⟩

/-! ## The page of the stack -/

/-- User mode finds the page `n` at the address of the stack, and the checks let it through. -/
structure StackOn (mem : PhysMem) (root n : ℕ) : Prop where
  small : n < 2 ^ 40
  walk : userWalk mem root userStack = some (0, tableEntry n)
  page : UserPage mem root userStack

section StackPage

variable (h : StackOn mem root n) (hv : v.toNat / 4096 = 0x700000000)

include h hv

theorem StackOn.userPage : UserPage mem root v := by
  have hsame : SamePage v userStack := hv
  refine ⟨by omega, ?_⟩
  rw [levelEntries_congr hsame]
  exact h.page.entries

theorem StackOn.userByte_eq :
    userByte mem root v = some (loadByte mem (n * 4096 + v.toNat % 4096)) := by
  have hsame : SamePage v userStack := hv
  have hwalk : userWalk mem root v = some (0, tableEntry n) := by
    rw [userWalk, indices_of_samePage hsame]
    exact h.walk
  rw [userByte, hwalk, Option.map_some, physAddr_tableEntry h.small]

end StackPage

theorem loadVirt_of_userByte {x : UInt8} (h : userByte mem root v = some x) :
    loadVirt mem root v = x := by
  obtain ⟨p, hp, hx⟩ := Option.map_eq_some_iff.mp h
  rw [loadVirt, walk_of_userWalk hp, Option.map_some, hx, Option.getD_some]

/-! ## Arguments -/

/-- A string that the shell passes. It comes from a command line of 256 characters, and ends
at the first zero. -/
structure ShellString (a : List UInt8) : Prop where
  short : a.length < 256
  chars : 0 ∉ a

/-- The string `a` at an address, with its terminator, within the page of the stack. The
kernel takes it for a string of the program. -/
structure StackString (mem : PhysMem) (root : ℕ) (a : List UInt8) (v : Word) : Prop where
  start : userStack.toNat ≤ v.toNat
  finish : v.toNat + a.length < userStack.toNat + 4096
  bytes : ∀ i ≤ a.length, userByte mem root (v + BitVec.ofNat 64 i) = some ((a ++ [0]).getD i 0)
  accepted : (vmmCheckUserString mem root v).1 = true

/-- What a program may rely on when it starts. -/
structure ValidStart (mem : PhysMem) (root : ℕ) (args : Option (List UInt8))
    (regs : UserRegisters) : Prop where
  arguments : regs.rdi = 0#64 ∨ ∃ a ∈ args, StackString mem root a regs.rdi
  above : userStack ≤ regs.rsp
  below : regs.rsp ≤ userStack + 4096#64
  mapped : UserPage mem root userStack

theorem ShellString.argsFit (h : ∀ a ∈ args, ShellString a) : ArgsFit args :=
  fun a ha => (h a ha).short.trans (by decide)

theorem ShellString.not_fills (h : ∀ a ∈ args, ShellString a) : ¬ FillsStack args := by
  intro ⟨a, ha, hlen⟩
  have hshort := (h a ha).short
  omega

/-- The arguments on the stack page are a string. -/
theorem StackOn.stackString (h : StackOn mem root n) (ha : ShellString a) {old : ℕ → UInt8}
    (hbytes : ∀ i < 4096, loadByte mem (n * 4096 + i) = stackByte (some a) old i) :
    StackString mem root a (stackPointer (some a)) := by
  have hlen : a.length < 4096 := ha.short.trans (by decide)
  have hstart := stackPointer_toNat hlen
  have hbase : userStack.toNat = 0x700000000000 := by decide
  have hread : ∀ i ≤ a.length, UserPage mem root (stackPointer (some a) + BitVec.ofNat 64 i) ∧
      userByte mem root (stackPointer (some a) + BitVec.ofNat 64 i) =
        some ((a ++ [0]).getD i 0) := by
    intro i hi
    have haddr := stackPointer_add_toNat hlen (show i ≤ a.length + 1 by omega)
    have hpage : (stackPointer (some a) + BitVec.ofNat 64 i).toNat / 4096 = 0x700000000 := by
      omega
    have hoffset : (stackPointer (some a) + BitVec.ofNat 64 i).toNat % 4096 =
        4096 - (a.length + 1) + i := by omega
    refine ⟨h.userPage hpage, ?_⟩
    rw [h.userByte_eq hpage, hoffset, hbytes _ (by omega), stackByte_args hlen]
  refine ⟨by omega, by omega, fun i hi => (hread i hi).2, ?_⟩
  refine vmmCheckUserString_of_userString _ ⟨a.length, by omega, ?_, ?_, fun i hi => (hread i hi).1⟩
  · intro i hi
    rw [loadVirt_of_userByte (hread i hi.le).2, List.getD_append _ _ _ _ hi,
      List.getD_eq_getElem _ _ hi]
    exact fun hzero => ha.chars (hzero ▸ List.getElem_mem hi)
  · rw [loadVirt_of_userByte (hread a.length le_rfl).2]
    simp

/-! ## How the stack is mapped -/

/-- The stack is found in any memory with the same tables. -/
theorem Stacked.stackOn (h : Stacked m₁ m m' root pages S done args n)
    (hsame : SameTables m' mem root) : StackOn mem root n := by
  have hhalf := h.placed.half
  have hlow : userStack.toNat < 2 ^ 47 := by decide
  have hpath := lowerPath_indices hlow
  have hleaf := h.leaf
  rw [indices_eq] at hpath hleaf
  obtain ⟨t, ht, hn, hentry⟩ := hhalf.last_entry hpath hleaf
  have htable := LowerPath.init _ _ hpath
  refine ⟨hn, ?_, userPage_of_descend (t := t) hlow ?_ ?_⟩
  · rw [hhalf.userWalk_same hsame hlow, hhalf.userWalk_eq hlow, h.leaf, Option.map_some]
  · rw [hhalf.descend_same hsame followsTables_checked htable, ht]
  · rw [hsame _ t (htable.of_le (by decide)) ht, hentry]
    exact userEntry_tableEntry hn

/-- User mode comes to page 0 before the last level, and from there to the stack page `n`,
which it takes for a table. -/
structure StackAsTable (mem : PhysMem) (root n : ℕ) : Prop where
  small : n < 2 ^ 40
  entry : mem 0 0 = tableEntry n
  leads : ∃ r, r ≠ [] ∧ r <+: tablePath userStack ∧ r.length < 3 ∧
    descend userTable mem root r = some 0

/-- Page 0 in the place of the last table only. -/
theorem stackOn_of_leads (hn : n < 2 ^ 40) (hentry : mem 0 0 = tableEntry n)
    (hleads : ∀ next, FollowsTables next → descend next mem root (tablePath userStack) = some 0) :
    StackOn mem root n := by
  have hindex : tableIndex userStack 12 = 0 := by decide
  refine ⟨hn, ?_, userPage_of_descend (by decide) (hleads _ followsTables_checked) ?_⟩
  · have hlength : (tablePath userStack).length = 3 := rfl
    rcases userWalk_zero (v := userStack) (by decide) hn hentry (by simp [tablePath])
      (List.prefix_refl _) (hleads _ followsTables_user) with ⟨_, hwalk⟩ | ⟨hlen, _⟩ | ⟨hlen, _⟩
    · exact hwalk
    · omega
    · omega
  · rw [hindex, hentry]
    exact userEntry_tableEntry hn

/-- Without an entry at its start the page leads nowhere. -/
theorem StackAsTable.userByte_eq (h : StackAsTable mem root n) (hword : present (mem n 0) = false)
    (hv : v.toNat / 4096 = 0x700000000) : userByte mem root v = none := by
  obtain ⟨hn, hentry, r, hr, hpre, hlen, hlead⟩ := h
  have hsame : SamePage v userStack := hv
  have hwalk : userWalk mem root v = userWalk mem root userStack := by
    rw [userWalk, indices_of_samePage hsame, userWalk]
  rw [userByte, hwalk, Option.map_eq_none_iff]
  rcases userWalk_zero (v := userStack) (by decide) hn hentry hr hpre hlead with
    ⟨hlen', _⟩ | ⟨_, hwalk⟩ | ⟨_, hwalk⟩
  · omega
  · rw [hwalk, userLeaf_of_not_present hword]
  · rw [hwalk, resolve_of_not_present hword]

/-! ## What the registers hold -/

theorem stackPointer_ne_zero (hargs : ArgsFit args) : stackPointer args ≠ 0#64 := by
  cases hcase : args with
  | none => decide
  | some a =>
      have hlen := hargs a hcase
      have hpointer := stackPointer_toNat hlen
      intro hnull
      have hzero : (0#64 : Word).toNat = 0 := rfl
      rw [hnull, hzero] at hpointer
      omega

theorem registers_eq {exit : ExecExit} {map entry stack : Word}
    (hexit : exit = .entered map entry stack) :
    exit.registers = some (jumpUsermode entry stack stack) := by
  rw [hexit]
  rfl

theorem StackOn.validStart (h : StackOn mem root n) (ha : ShellString a) {old : ℕ → UInt8}
    (hbytes : ∀ i < 4096, loadByte mem (n * 4096 + i) = stackByte (some a) old i) (entry : Word) :
    ValidStart mem root (some a)
      (jumpUsermode entry (stackPointer (some a)) (stackPointer (some a))) := by
  have hpointer := stackPointer_toNat (ha.short.trans (by decide))
  have hshort := ha.short
  have hbase : userStack.toNat = 0x700000000000 := by decide
  have htop : (userStack + 4096#64).toNat = 0x700000001000 := by decide
  refine ⟨.inr ⟨a, rfl, h.stackString ha hbytes⟩, ?_, ?_, h.page⟩
  · rw [BitVec.le_def, hbase, jumpUsermode, hpointer]
    omega
  · rw [BitVec.le_def, htop, jumpUsermode, hpointer]
    omega

/-- A page that is read as a table shows no string. -/
theorem StackAsTable.not_stackString (h : StackAsTable mem root n)
    (hword : present (mem n 0) = false) : ¬ StackString mem root a v := by
  intro hstring
  have hstart := hstring.start
  have hfinish := hstring.finish
  have hbase : userStack.toNat = 0x700000000000 := by decide
  have hfirst := hstring.bytes 0 (Nat.zero_le _)
  rw [BitVec.add_zero, h.userByte_eq hword (by omega)] at hfirst
  cases hfirst

/-- The first word of the stack page is the one that was there. -/
theorem present_stackPage {mem' : PhysMem} (hargs : ∀ a ∈ args, ShellString a)
    (hbytes : ∀ i < 4096, loadByte mem (n * 4096 + i) =
      stackByte args (fun k => loadByte mem' (n * 4096 + k)) i)
    (hword : present (mem' n 0) = false) : present (mem n 0) = false := by
  have hbyte := hbytes 0 (by decide)
  rw [stackByte_start (ShellString.argsFit hargs) (ShellString.not_fills hargs), Nat.add_zero,
    loadByte_pageStart, loadByte_pageStart] at hbyte
  have hsame := congrArg UInt8.toNat hbyte
  rw [toNat_wordByte_zero, toNat_wordByte_zero] at hsame
  rw [← Bool.not_eq_true, present_iff] at hword ⊢
  omega

/-! ## Memory for the stack -/

/-- If the file of the call is accepted, there are as many pages left for the stack page as
tables are missing above it. -/
def StackTables (fs : Files) (filename : List UInt8) (m : Machine) : Prop :=
  ∀ c, contextOf fs filename m = some c → HeaderAccepted c.buf c.size →
    tablesFor (c.reached.map SegPage.number) stackPage.number ≤ c.remaining

/-- No page that is free once the file is in its buffer starts with an entry for a page. -/
def BlankPages (fs : Files) (filename : List UInt8) (m : Machine) : Prop :=
  ∀ c, contextOf fs filename m = some c →
    ∀ n ∈ clearPages c.machine.pmm.bitmap c.machine.pmm.highestPage,
      present (c.machine.mem n 0) = false

end LispDos.Process
