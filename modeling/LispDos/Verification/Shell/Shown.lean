import LispDos.Verification.Shell.Words
import LispDos.Verification.Syscall.Display

/-! # What the shell shows

The commands of the shell print characters and clear the screen; none of them sets the cursor. -/

namespace LispDos.Shell

open Console Syscall

variable {fb : Framebuffer} {keys line args : List UInt8} {ops ops' : List Op}

/-- Nothing of this sets the cursor beside the screen. -/
def AllAimed (fb : Framebuffer) (ops : List Op) : Prop := ∀ op ∈ ops, Aimed fb op

@[simp] theorem allAimed_nil : AllAimed fb [] := List.forall_mem_nil _

@[simp] theorem allAimed_cons {op : Op} :
    AllAimed fb (op :: ops) ↔ Aimed fb op ∧ AllAimed fb ops := List.forall_mem_cons

@[simp] theorem allAimed_append :
    AllAimed fb (ops ++ ops') ↔ AllAimed fb ops ∧ AllAimed fb ops' := List.forall_mem_append

@[simp] theorem allAimed_putchars (fb : Framebuffer) (data : List UInt8) :
    AllAimed fb (data.map .putchar) := by
  intro op hop
  obtain ⟨c, _, rfl⟩ := List.mem_map.mp hop
  exact aimed_putchar fb c

theorem allAimed_flatMap {α : Type*} {f : α → List Op} (xs : List α)
    (h : ∀ x, AllAimed fb (f x)) : AllAimed fb (xs.flatMap f) := by
  intro op hop
  obtain ⟨x, _, hin⟩ := List.mem_flatMap.mp hop
  exact h x op hin

/-! ## Listings -/

theorem allAimed_dirLine (e : DirEntry) : AllAimed fb (dirLine e) := by
  rw [dirLine, allAimed_append]
  refine ⟨allAimed_putchars fb _, ?_⟩
  have hsize := allAimed_putchars fb (sizeDigits e.fileSize).reverse
  split_ifs
  · simp
  · simp
  · simp only [allAimed_cons, allAimed_append]
    exact ⟨aimed_print _ _, hsize, by simp⟩

theorem allAimed_fat16Dir (b : Bpb) (d : Disk) : AllAimed fb (fat16Dir b d) := by
  rw [fat16Dir, allAimed_cons, allAimed_append]
  refine ⟨aimed_print _ _, allAimed_flatMap _ allAimed_dirLine, ?_⟩
  split_ifs <;> simp

theorem allAimed_listing (es : List Tarfs.Entry) : AllAimed fb (Tarfs.listing es) := by
  have hlisted : ∀ e, AllAimed fb (Tarfs.listed e) := by
    intro e
    rw [Tarfs.listed]
    split_ifs <;> simp
  rw [Tarfs.listing, allAimed_cons, allAimed_append]
  refine ⟨aimed_print _ _, allAimed_flatMap es hlisted, ?_⟩
  split_ifs <;> simp

theorem allAimed_typing (es : List Tarfs.Entry) (filename : List UInt8) :
    AllAimed fb (Tarfs.typing es filename) := by
  rw [Tarfs.typing]
  cases es.find? fun e => e.name = Tarfs.skipSpaces filename with
  | none => simp
  | some e => simp

/-! ## The line -/

theorem allAimed_echoKeys : AllAimed fb (Ideal.echoKeys line keys) := by
  induction keys generalizing line with
  | nil => exact allAimed_nil
  | cons c keys ih =>
      rw [Ideal.echoKeys, allAimed_append]
      refine ⟨?_, ih⟩
      rw [Ideal.echoKey]
      split_ifs <;> simp

theorem allAimed_typed (keys : List UInt8) : AllAimed fb (Ideal.typed keys) := by
  rw [Ideal.typed, allAimed_cons, allAimed_append]
  exact ⟨aimed_print _ _, allAimed_echoKeys, by simp⟩

theorem allAimed_removed (result : ℤ) : AllAimed fb (removed result) := by
  rw [removed]
  split_ifs <;> simp

end LispDos.Shell
