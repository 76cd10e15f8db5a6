import LispDos.Verification.Fat16.Stored

/-! # When a write succeeds

On a consistent volume a write comes to its end exactly when it finds a slot and enough
clusters, where the clusters of the file that it replaces count as free. -/

namespace LispDos.Fat16

open Foundation

variable {b : Bpb} {d : Disk} {chain : ℕ → List ℕ} {name filename : List UInt8} {cs : List ℕ}

/-- On a volume with a layout the replaced clusters are determined by the name. -/
theorem Layout.exists_replaced (h : Layout b d chain) (name : List UInt8) :
    ∃ cs, ∀ l, Replaced b d name l ↔ l = cs := by
  by_cases hex : ∃ k < slots b, Matches name (slot b d k)
  · obtain ⟨k, hk, hm⟩ := hex
    obtain ⟨e, hchain, _⟩ := h.chains k hk hm.1
    refine ⟨chain k, fun l => ⟨?_, ?_⟩⟩
    · exact (Target.existing k hk hm).replaced h.toSound
    · intro hl
      subst hl
      exact .entry k hk hm (chain k) e hchain
  · have hno : ∀ j < slots b, ¬ Matches name (slot b d j) := fun j hj hm => hex ⟨j, hj, hm⟩
    refine ⟨[], fun l => ⟨?_, ?_⟩⟩
    · intro hl
      cases hl with
      | entry k hk hm => exact (hno k hk hm).elim
      | new => rfl
    · intro hl
      subst hl
      exact .new hno

/-- What a write leaves: a new entry with a chain of the needed length, or the directory
as it was. -/
inductive Written (b : Bpb) (d : Disk) (name : List UInt8) (size : ℕ) :
    WriteExit × Disk → Prop where
  | updated (r : Disk) (k : ℕ) (hk : k < slots b) (l : List ℕ)
      (stored : slot b r k = newEntry name (l.headD 0) size)
      (chain : ClusterChain b r (slot b r k).firstCluster l 0xFFFF)
      (length : l.length = need b size) : Written b d name size (.done, r)
  | failed (exit : WriteExit) (r : Disk) (hexit : exit = .rootFull ∨ exit = .diskFull)
      (same : ∀ j < slots b, slot b r j = slot b d j) : Written b d name size (exit, r)

theorem WriteCase.written {buffer : ℕ → UInt8} {size : ℕ} {r : WriteExit × Disk}
    (h : WriteCase b d chain name buffer size r) : Written b d name size r := by
  cases h with
  | rootFull => exact .failed _ d (.inl rfl) (fun _ _ => rfl)
  | diskFull k cs l r target hcard hl entry outside =>
      exact .failed _ r (.inr rfl) (fun j hj => slot_of_diskFull outside hj)
  | done k cs l r target hlen hcard hl new entry outside mirror stored =>
      refine .updated r k target.lt l stored ?_ hlen
      rw [stored]
      exact new

/-- The success condition of a write. -/
theorem write_done_iff (h : Consistent b d) (filename : List UInt8) (buffer : ℕ → UInt8)
    (size : UInt32) :
    ∃ cs, (∀ l, Replaced b d (formatFatName filename) l ↔ l = cs) ∧
      ((fat16WriteRun b d filename buffer size).1 = .done ↔
        HasSlot b d (formatFatName filename) ∧ need b size.toNat ≤ (available b d cs).card) ∧
      Written b d (formatFatName filename) size.toNat
        (fat16WriteRun b d filename buffer size) := by
  obtain ⟨chain, h⟩ := h
  obtain ⟨cs, hcs⟩ := h.exists_replaced (formatFatName filename)
  have hw := fat16WriteRun_cases h.toSound filename buffer size
  refine ⟨cs, hcs, ?_, hw.written⟩
  have hcs := (hcs cs).mpr rfl
  generalize fat16WriteRun b d filename buffer size = w at hw
  cases hw with
  | rootFull hlive hno =>
      have hslot : ¬ HasSlot b d (formatFatName filename) := by
        intro hslot
        rcases hslot with ⟨j, hj, hm | hfree⟩
        · exact hno j hj hm
        · exact hfree (hlive j hj)
      simp [hslot]
  | diskFull k cs' l r target hcard =>
      obtain rfl := target.replaced h.toSound hcs
      have hlack : ¬ need b size.toNat ≤ (available b d cs).card := by omega
      simp [hlack]
  | done k cs' l r target hlen hcard =>
      obtain rfl := target.replaced h.toSound hcs
      exact iff_of_true rfl ⟨target.hasSlot, hcard⟩

/-- The blank small volume. -/
theorem write_done_iff_small : ∃ cs,
    (∀ l, Replaced (smallBpb 6) blankDisk (formatFatName [0x41]) l ↔ l = cs) ∧
      ((fat16WriteRun (smallBpb 6) blankDisk [0x41] (fun _ => 7) 1).1 = .done ↔
        HasSlot (smallBpb 6) blankDisk (formatFatName [0x41]) ∧
          need (smallBpb 6) 1 ≤ (available (smallBpb 6) blankDisk cs).card) ∧
      Written (smallBpb 6) blankDisk (formatFatName [0x41]) 1
        (fat16WriteRun (smallBpb 6) blankDisk [0x41] (fun _ => 7) 1) :=
  write_done_iff ⟨fun _ => [], blankDisk_layout smallBpb_six _⟩ [0x41] (fun _ => 7) 1

end LispDos.Fat16
