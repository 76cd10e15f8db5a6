import LispDos.Verification.Fat16.Rollback

/-! # Consistency over whole runs

A call keeps a volume consistent exactly when it does not run out of space while it
overwrites an entry that has clusters. -/

namespace LispDos.Fat16

open Foundation

variable {b : Bpb} {d : Disk} {chain : ℕ → List ℕ}

/-- A call of `fat16_write_file` or `fat16_delete_file`. -/
inductive Call where
  | write (filename : List UInt8) (buffer : ℕ → UInt8) (size : UInt32)
  | delete (filename : List UInt8)

/-- The disk after a call. -/
def Call.apply (b : Bpb) (d : Disk) : Call → Disk
  | .write filename buffer size => (fat16WriteFile b d filename buffer size).2
  | .delete filename => (fat16DeleteFile b d filename).2

/-- The disk after a sequence of calls. -/
def runCalls (b : Bpb) (d : Disk) (calls : List Call) : Disk := calls.foldl (Call.apply b) d

/-- A written name does not start with the deletion mark. -/
def Call.Named : Call → Prop
  | .write filename _ _ => filename.head? ≠ some 0xE5
  | .delete _ => True

/-- A call fits when the clusters that are free or its own suffice for the entry it
overwrites, unless that entry has none. -/
def Call.Fits (b : Bpb) (d : Disk) : Call → Prop
  | .write filename _ size => ∀ k < slots b, Matches (formatFatName filename) (slot b d k) →
      ∀ l e, ClusterChain b d (slot b d k).firstCluster l e →
        l = [] ∨ need b size.toNat ≤ (available b d l).card
  | .delete _ => True

/-- Every call of the sequence fits the disk it is made on. -/
def AllFit (b : Bpb) : Disk → List Call → Prop
  | _, [] => True
  | d, call :: calls => call.Fits b d ∧ AllFit b (call.apply b d) calls

/-! ## One call -/

/-- A write that needs more than there is fits when the slot it takes has no old
clusters. -/
theorem Target.fits_iff (h : Sound b d chain) {filename : List UInt8} {buffer : ℕ → UInt8}
    {size : UInt32} {k : ℕ} {cs : List ℕ} (target : Target b d chain (formatFatName filename) k cs) :
    (Call.write filename buffer size).Fits b d ↔
      (cs = [] ∨ need b size.toNat ≤ (available b d cs).card) := by
  constructor
  · intro hfits
    cases target with
    | existing hk hm =>
        obtain ⟨e, hchain, _⟩ := h.chains k hk hm.1
        exact hfits k hk hm _ e hchain
    | fresh => exact .inl rfl
  · intro hcs j hj hm l e hchain
    obtain ⟨-, rfl⟩ := target.eq_of_existing h hj hm hchain
    exact hcs

theorem write_consistent_iff (h : Layout b d chain) {filename : List UInt8}
    (hname : filename.head? ≠ some 0xE5) (buffer : ℕ → UInt8) (size : UInt32) :
    Consistent b (fat16WriteRun b d filename buffer size).2 ↔
      (Call.write filename buffer size).Fits b d := by
  have hw := fat16WriteRun_cases h.toSound filename buffer size
  have hdangling : ∀ k < slots b, Matches (formatFatName filename) (slot b d k) → chain k ≠ [] →
      (fat16WriteRun b d filename buffer size).1 = .diskFull →
      ¬ Consistent b (fat16WriteRun b d filename buffer size).2 := by
    intro k hk hm hne hexit
    obtain ⟨e, hchain, _⟩ := h.chains k hk hm.1
    exact overwrite_dangling h.toSound hk hm hchain hne hexit
  generalize fat16WriteRun b d filename buffer size = r at hw hdangling
  cases hw with
  | rootFull _ hno =>
      refine iff_of_true ⟨chain, h⟩ ?_
      intro k hk hm
      exact (hno k hk hm).elim
  | diskFull k cs l r target hcard hl entry outside mirror =>
      rw [target.fits_iff h.toSound]
      by_cases hcs : cs = []
      · subst cs
        refine iff_of_true ⟨chain, h.of_same ?_ ?_ (mirror h.mirror)⟩ (.inl rfl)
        · intro x hx
          simpa using entry x hx
        · intro j hj
          exact slot_of_diskFull outside hj
      · refine iff_of_false ?_ (by rw [not_or]; exact ⟨hcs, by omega⟩)
        cases target with
        | existing hk hm => exact hdangling k hk hm hcs rfl
        | fresh => exact (hcs rfl).elim
  | done k cs l r target hlen hcard hl new entry outside mirror stored others data =>
      refine iff_of_true ?_ ((target.fits_iff h.toSound).mpr (.inr hcard))
      obtain ⟨_, _, _, hlayout, _⟩ := WriteCase.layout_done h
        (headD_formatFatName_ne_zero filename) (headD_formatFatName_ne_deleted hname)
        (.done k cs l r target hlen hcard hl new entry outside mirror stored others data)
      exact ⟨_, hlayout⟩

theorem Call.consistent_apply_iff (h : Consistent b d) {call : Call} (hname : call.Named) :
    Consistent b (call.apply b d) ↔ call.Fits b d := by
  obtain ⟨chain, h⟩ := h
  cases call with
  | write filename buffer size =>
      rw [Call.apply, fat16WriteFile_snd]
      exact write_consistent_iff h hname buffer size
  | delete filename =>
      exact iff_of_true ((fat16DeleteFile_cases h.toSound filename).consistent h) trivial

/-! ## Sequences of calls -/

/-- Every state of a run is consistent if and only if every call of it fits. -/
theorem run_consistent_iff (h : Consistent b d) (calls : List Call)
    (hnames : ∀ call ∈ calls, call.Named) :
    (∀ n, Consistent b (runCalls b d (calls.take n))) ↔ AllFit b d calls := by
  induction calls generalizing d with
  | nil =>
      simp only [AllFit, iff_true]
      intro n
      rw [List.take_nil]
      exact h
  | cons call calls ih =>
      have hstep := Call.consistent_apply_iff h (hnames call (by simp))
      have htail : ∀ c ∈ calls, c.Named := fun c hc => hnames c (by simp [hc])
      simp only [AllFit]
      constructor
      · intro hall
        have hone : Consistent b (call.apply b d) := by
          have := hall 1
          rwa [List.take_succ_cons, List.take_zero] at this
        refine ⟨hstep.mp hone, (ih hone htail).mp ?_⟩
        intro n
        exact hall (n + 1)
      · rintro ⟨hfits, hall⟩ n
        have hone := hstep.mpr hfits
        cases n with
        | zero => exact h
        | succ n => exact (ih hone htail).mpr hall n

theorem runCalls_two_writes (b : Bpb) (d : Disk) (f g : List UInt8) (x y : ℕ → UInt8)
    (m n : UInt32) :
    runCalls b d [.write f x m, .write g y n] =
      (fat16WriteRun b (fat16WriteFile b d f x m).2 g y n).2 := rfl

/-- A second write of the same name that does not fit. -/
def overflowCalls : List Call := [.write [0x41] (fun _ => 7) 1, .write [0x41] (fun _ => 7) 513]

theorem overflow_run_inconsistent : Consistent (smallBpb 6) blankDisk ∧
    (∀ call ∈ overflowCalls, call.Named) ∧
    ¬ Consistent (smallBpb 6) (runCalls (smallBpb 6) blankDisk overflowCalls) := by
  refine ⟨⟨_, blankDisk_layout smallBpb_six (fun _ => [])⟩, ?_, ?_⟩
  · simp [overflowCalls, Call.Named]
  · obtain ⟨chain, hlayout, k, hk, hf, hne⟩ := smallDisk_layout
    have hm : Matches (formatFatName [0x41]) (slot (smallBpb 6) smallDisk k) := ⟨hf.1, hf.2.1⟩
    obtain ⟨e, hchain, _⟩ := hlayout.chains k hk hf.1
    have hexit := small_write_diskFull hlayout.toSound ⟨k, hk, .inr hm⟩ (fun _ => 7)
    have hrun : runCalls (smallBpb 6) blankDisk overflowCalls =
        (fat16WriteRun (smallBpb 6) smallDisk [0x41] (fun _ => 7) 513).2 :=
      runCalls_two_writes ..
    rw [hrun]
    exact overwrite_dangling hlayout.toSound hk hm hchain hne hexit

theorem run_consistent_iff_small : Consistent (smallBpb 6)
    (runCalls (smallBpb 6) blankDisk [.write [0x41] (fun _ => 7) 1, .delete [0x41]]) := by
  refine (run_consistent_iff ⟨_, blankDisk_layout smallBpb_six (fun _ => [])⟩
    [.write [0x41] (fun _ => 7) 1, .delete [0x41]] ?_).mpr ?_ 2
  · simp [Call.Named]
  · refine ⟨?_, trivial, trivial⟩
    intro k _ hm
    exact absurd hm.1 (slot_blankDisk_not_live _ k)

end LispDos.Fat16
