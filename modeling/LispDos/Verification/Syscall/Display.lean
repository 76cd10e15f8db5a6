import LispDos.Kernel.Syscall
import LispDos.Verification.Console.Bounds
import LispDos.Verification.Syscall.Checks

/-! # Printing in the framebuffer

As long as the cursor is on the screen, what the kernel shows is stored in the framebuffer, and the
memory of the machine does not change. -/

namespace LispDos.Syscall

open Console Memory

variable {k k' : Kernel} {op : Op} {ops : List Op} {draws : List Draw} {v : Word} {w : Work}

/-! ## Where the console stores -/

/-- The display has at least one cell, and the cursor is on a cell. -/
structure Display.OnScreen (s : Display) : Prop where
  geometry : Geometry s.fb
  cursor : Console.OnScreen s.fb s.terminal.row s.terminal.column

/-- The operation sets the cursor on the screen only. -/
def Aimed (fb : Framebuffer) (op : Op) : Prop := op.Prints fb fun _ => True

@[simp] theorem aimed_clear (fb : Framebuffer) : Aimed fb .clear := trivial

@[simp] theorem aimed_putchar (fb : Framebuffer) (c : UInt8) : Aimed fb (.putchar c) := trivial

@[simp] theorem aimed_print (fb : Framebuffer) (data : List UInt8) : Aimed fb (.print data) :=
  fun _ _ => trivial

theorem aimed_vgaPrintHex (fb : Framebuffer) (n : Word) : ∀ op ∈ vgaPrintHex n, Aimed fb op := by
  intro op hop
  rcases List.mem_cons.mp hop with rfl | hop
  · exact aimed_print fb _
  · obtain ⟨c, _, rfl⟩ := List.mem_map.mp hop
    exact aimed_putchar fb c

@[simp] theorem setTerminal_machine (k : Kernel) (t : Terminal) :
    (k.setTerminal t).machine = k.machine := rfl

/-- Only the framebuffer and the variables of the console have changed, and the cursor is still on
the screen. -/
structure Quiet (k : Kernel) (w : Work) : Prop where
  kernel : ∃ t, w.kernel = k.setTerminal t ∧ Console.OnScreen k.display.fb t.row t.column
  stores : ∀ v, .write v ∈ w.log → ∃ index : Size, index.toNat < k.display.pixels ∧
    v ∈ k.display.bytes index

theorem Quiet.onScreen (h : Quiet k w) (hgeom : Geometry k.display.fb) :
    w.kernel.display.OnScreen := by
  obtain ⟨t, heq, hcursor⟩ := h.kernel
  rw [heq]
  exact ⟨hgeom, hcursor⟩

theorem Quiet.machine (h : Quiet k w) : w.kernel.machine = k.machine := by
  obtain ⟨t, heq, _⟩ := h.kernel
  rw [heq, Kernel.setTerminal]

theorem Quiet.cr3 (h : Quiet k w) : w.kernel.cr3 = k.cr3 := by
  obtain ⟨t, heq, _⟩ := h.kernel
  rw [heq, Kernel.setTerminal]

theorem Quiet.fb (h : Quiet k w) : w.kernel.display.fb = k.display.fb := by
  obtain ⟨t, heq, _⟩ := h.kernel
  rw [heq, Kernel.setTerminal]

theorem Quiet.volume (h : Quiet k w) : w.kernel.bpb = k.bpb ∧ w.kernel.disk = k.disk := by
  obtain ⟨t, heq, _⟩ := h.kernel
  rw [heq]
  exact ⟨rfl, rfl⟩

/-- One part of the work after another. -/
theorem Quiet.trans (h : Quiet k w) {w' : Work} (h' : Quiet w.kernel w') {log : List Access}
    (hlog : ∀ v, .write v ∈ log → .write v ∈ w.log ∨ .write v ∈ w'.log) :
    Quiet k ⟨w'.kernel, log⟩ := by
  obtain ⟨t, heq, _⟩ := h.kernel
  obtain ⟨t', heq', hcursor⟩ := h'.kernel
  rw [heq] at heq' hcursor
  refine ⟨⟨t', heq', hcursor⟩, fun v hv => ?_⟩
  rcases hlog v hv with hv | hv
  · exact h.stores v hv
  · have hstores := h'.stores v hv
    rw [heq] at hstores
    exact hstores

/-! ## Operations -/

/-- Pixels of the framebuffer are no part of the memory of the machine. -/
theorem foldl_draw (h : ∀ draw ∈ draws, draw.Within k.display.fb fun _ => True) :
    draws.foldl Kernel.draw k = k := by
  induction draws with
  | nil => rfl
  | cons draw draws ih =>
      rw [List.forall_mem_cons] at h
      have hfirst : k.draw draw = k := by
        cases draw with
        | pixel index color => exact if_pos h.1
        | glyph row => rfl
      rw [List.foldl_cons, hfirst, ih h.2]

theorem show_quiet (h : k.display.OnScreen) (hop : Aimed k.display.fb op) : Quiet k (k.show op) := by
  have hstays := Op.exec_stays h.geometry k.display.font hop h.cursor
  refine ⟨⟨_, ?_, hstays.cursor⟩, fun v hv => ?_⟩
  · rw [Kernel.show, foldl_draw hstays.inside]
  · obtain ⟨draw, hdraw, hin⟩ := List.mem_flatMap.mp hv
    have hinside := hstays.inside draw hdraw
    cases draw with
    | pixel index color =>
        obtain ⟨a, ha, heq⟩ := List.mem_map.mp hin
        obtain rfl := Access.write.inj heq
        exact ⟨index, hinside, ha⟩
    | glyph row => cases hin

/-- An operation of the console reads nothing of the program. -/
theorem show_reads (k : Kernel) (op : Op) (v : Word) : .read v ∉ (k.show op).log := by
  intro hv
  obtain ⟨draw, _, hin⟩ := List.mem_flatMap.mp hv
  cases draw with
  | pixel index color =>
      obtain ⟨a, _, heq⟩ := List.mem_map.mp hin
      cases heq
  | glyph row => cases hin

theorem showAll_quiet (h : k.display.OnScreen) (hops : ∀ op ∈ ops, Aimed k.display.fb op) :
    Quiet k (k.showAll ops) := by
  induction ops generalizing k with
  | nil => exact ⟨⟨k.display.terminal, rfl, h.cursor⟩, by simp [Kernel.showAll]⟩
  | cons op ops ih =>
      rw [List.forall_mem_cons] at hops
      have hfirst := show_quiet h hops.1
      have hrest := ih (hfirst.onScreen h.geometry) (by rw [hfirst.fb]; exact hops.2)
      exact hfirst.trans hrest fun v hv => List.mem_append.mp hv

theorem showAll_reads (k : Kernel) (ops : List Op) (v : Word) : .read v ∉ (k.showAll ops).log := by
  induction ops generalizing k with
  | nil => simp [Kernel.showAll]
  | cons op ops ih =>
      rw [Kernel.showAll, List.mem_append, not_or]
      exact ⟨show_reads k op v, ih _⟩

/-! ## Strings of the program -/

/-- A string that is printed while the cursor is on the screen is read up to its terminator. -/
structure PrintsString (k : Kernel) (v : Word) (p : Printed) : Prop extends Quiet k p.toWork where
  data : p.data = cString k.machine.mem k.root v
  reads : ∀ a, .read a ∈ p.log → a ∈ addresses v (p.data.length + 1)

theorem self_mem_addresses (v : Word) (n : ℕ) : v ∈ addresses v (n + 1) := by
  refine List.mem_map.mpr ⟨0, List.mem_range.mpr (by omega), ?_⟩
  show v + 0#64 = v
  rw [BitVec.add_zero]

theorem mem_addresses_next {a : Word} {n : ℕ} (h : a ∈ addresses (v + 1#64) n) :
    a ∈ addresses v (n + 1) := by
  obtain ⟨i, hi, rfl⟩ := List.mem_map.mp h
  refine List.mem_map.mpr ⟨i + 1, List.mem_range.mpr (by have := List.mem_range.mp hi; omega), ?_⟩
  rw [Nat.add_comm i 1, BitVec.ofNat_add, ← BitVec.add_assoc]

/-- Nothing is printed. -/
theorem printsString_empty (h : k.display.OnScreen) (hempty : cString k.machine.mem k.root v = []) :
    PrintsString k v ⟨⟨k, [.read v]⟩, []⟩ where
  kernel := ⟨k.display.terminal, rfl, h.cursor⟩
  stores := by simp
  data := hempty.symm
  reads := by
    intro a ha
    obtain rfl := Access.read.inj (List.mem_singleton.mp ha)
    exact self_mem_addresses a 0

theorem vgaPrint_prints (h : k.display.OnScreen) (v : Word) : PrintsString k v (k.vgaPrint v) := by
  fun_induction Kernel.vgaPrint k v with
  | case1 k v hv c hzero =>
      refine printsString_empty h ?_
      rw [cString, dif_pos hv]
      exact if_pos hzero
  | case2 k v hv c hzero first rest ih =>
      have hfirst := show_quiet h (aimed_putchar k.display.fb c)
      have hrest := ih (hfirst.onScreen h.geometry)
      have hsame : rest.data = cString k.machine.mem k.root (v + 1#64) := by
        rw [hrest.data, Kernel.root, hfirst.machine, hfirst.cr3, Kernel.root]
      have hdata : c :: rest.data = cString k.machine.mem k.root v := by
        rw [cString, dif_pos hv, hsame]
        exact (if_neg hzero).symm
      refine ⟨hfirst.trans hrest.toQuiet ?_, hdata, ?_⟩
      · intro a ha
        rcases List.mem_cons.mp ha with ha | ha
        · cases ha
        · exact List.mem_append.mp ha
      · intro a ha
        rcases List.mem_cons.mp ha with ha | ha
        · obtain rfl := Access.read.inj ha
          exact self_mem_addresses a _
        · rcases List.mem_append.mp ha with ha | ha
          · exact (show_reads k (.putchar c) a ha).elim
          · exact mem_addresses_next (hrest.reads a ha)
  | case3 k v hv =>
      refine printsString_empty h ?_
      rw [cString, dif_neg hv]

/-- The first character is drawn before the rest is read. -/
theorem vgaPrint_read (hv : v < lowerLimit) : .read v ∈ (k.vgaPrint v).log := by
  rw [Kernel.vgaPrint, dif_pos hv]
  by_cases hc : k.load v = 0
  · simp [hc]
  · simp [hc]

theorem vgaPrint_log (hv : v < lowerLimit) (hc : k.load v ≠ 0) :
    ∀ a ∈ (k.show (.putchar (k.load v))).log, a ∈ (k.vgaPrint v).log := by
  intro a ha
  rw [Kernel.vgaPrint, dif_pos hv]
  simp only [hc, if_false]
  exact List.mem_cons_of_mem _ (List.mem_append_left _ ha)

end LispDos.Syscall
