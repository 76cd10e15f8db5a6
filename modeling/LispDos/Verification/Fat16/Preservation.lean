import LispDos.Verification.Fat16.RoundTrip

/-! # Layouts under one operation

A layout survives every step that leaves the other entries alone and accounts for the
clusters of the one slot it changes. -/

namespace LispDos.Fat16

open Foundation

variable {b : Bpb} {d d' : Disk} {chain : ℕ → List ℕ} {name : List UInt8}
  {buffer : ℕ → UInt8} {size k : ℕ} {cs l : List ℕ}

/-- A layout depends on the slots and on the entries of the table. -/
theorem Layout.of_same (h : Layout b d chain)
    (hentry : ∀ x < 256 * b.tableSize, fat16GetFatEntry b d' x = fat16GetFatEntry b d x)
    (hslot : ∀ j < slots b, slot b d' j = slot b d j) (hm : Mirror b d') :
    Layout b d' chain where
  geometry := h.geometry
  dir := h.dir.congr hslot
  chains := by
    intro j hj
    rw [hslot j hj]
    intro hl
    obtain ⟨e, hchain, hend⟩ := h.chains j hj hl
    exact ⟨e, hchain.congr (fun x hx => hentry x (h.lt_entries hj hl hx)), hend⟩
  range := by
    intro j hj
    rw [hslot j hj]
    exact h.range j hj
  disjoint := by
    intro i hi j hj
    rw [hslot i hi, hslot j hj]
    exact h.disjoint i hi j hj
  mirror := hm
  plain := by
    intro j hj
    rw [hslot j hj]
    exact h.plain j hj
  enough := by
    intro j hj
    rw [hslot j hj]
    exact h.enough j hj
  owned := by
    intro c h₁ h₂ hne
    rw [hentry c (h.geometry.lt_entries h₂)] at hne
    obtain ⟨j, hj, hl, hc⟩ := h.owned c h₁ h₂ hne
    exact ⟨j, hj, by rwa [hslot j hj], hc⟩

/-- What a live slot owes to the layout. -/
structure SlotOk (b : Bpb) (d : Disk) (e : DirEntry) (l : List ℕ) : Prop where
  chain : ∃ x, ClusterChain b d e.firstCluster l x ∧ (l = [] ∨ 0xFFEF < x)
  range : ∀ c ∈ l, c ≤ clusters b + 1
  plain : ¬ IsDir e
  enough : e.fileSize ≤ clusterBytes b * l.length

theorem Layout.slotOk (h : Layout b d chain) (hk : k < slots b) (hl : Live (slot b d k)) :
    SlotOk b d (slot b d k) (chain k) :=
  ⟨h.chains k hk hl, h.range k hk hl, h.plain k hk hl, h.enough k hk hl⟩

/-- The entries other than `k` keep what they owe. -/
theorem Keeps.slotOk (hkeep : Keeps b d d' chain k) (h : Layout b d chain) {j : ℕ}
    (hj : j < slots b) (hl : Live (slot b d j)) (hjk : j ≠ k) :
    SlotOk b d' (slot b d j) (chain j) := by
  obtain ⟨⟨e, hchain, hend⟩, hrange, hplain, henough⟩ := h.slotOk hj hl
  exact ⟨⟨e, hchain.congr (hkeep.entry j hj hl hjk), hend⟩, hrange, hplain, henough⟩

/-- One slot may change when its new chain is apart from the others and no cluster is
left without an owner. -/
theorem Layout.update (h : Layout b d chain) (hk : k < slots b) (hkeep : Keeps b d d' chain k)
    (hdir : DirOk b d') (hm : Mirror b d')
    (hnew : Live (slot b d' k) → SlotOk b d' (slot b d' k) l)
    (hdisj : ∀ j < slots b, Live (slot b d j) → j ≠ k → ∀ c ∈ chain j, c ∉ l)
    (howned : ∀ c, 2 ≤ c → c ≤ clusters b + 1 → fat16GetFatEntry b d' c ≠ 0 →
      (Live (slot b d' k) ∧ c ∈ l) ∨
        (fat16GetFatEntry b d c ≠ 0 ∧ (Live (slot b d k) → c ∉ chain k))) :
    Layout b d' (Function.update chain k l) := by
  have hok : ∀ j < slots b, Live (slot b d' j) →
      SlotOk b d' (slot b d' j) (Function.update chain k l j) := by
    intro j hj hl
    by_cases hjk : j = k
    · subst j
      rw [Function.update_self]
      exact hnew hl
    · rw [hkeep.others j hj hjk] at hl ⊢
      rw [Function.update_of_ne hjk]
      exact hkeep.slotOk h hj hl hjk
  refine ⟨⟨h.geometry, hdir, fun j hj hl => (hok j hj hl).chain,
    fun j hj hl => (hok j hj hl).range, ?_⟩, hm, fun j hj hl => (hok j hj hl).plain,
    fun j hj hl => (hok j hj hl).enough, ?_⟩
  · intro i hi j hj hli hlj hij c hci hcj
    by_cases hik : i = k
    · have hjk : j ≠ k := fun hjk => hij (hik.trans hjk.symm)
      subst i
      rw [hkeep.others j hj hjk] at hlj
      rw [Function.update_self] at hci
      rw [Function.update_of_ne hjk] at hcj
      exact hdisj j hj hlj hjk c hcj hci
    · rw [hkeep.others i hi hik] at hli
      rw [Function.update_of_ne hik] at hci
      by_cases hjk : j = k
      · subst j
        rw [Function.update_self] at hcj
        exact hdisj i hi hli hik c hci hcj
      · rw [hkeep.others j hj hjk] at hlj
        rw [Function.update_of_ne hjk] at hcj
        exact h.disjoint i hi j hj hli hlj hij c hci hcj
  · intro c h₁ h₂ hne
    rcases howned c h₁ h₂ hne with ⟨hl, hc⟩ | ⟨hne', hnot⟩
    · exact ⟨k, hk, hl, by rwa [Function.update_self]⟩
    · obtain ⟨j, hj, hl, hc⟩ := h.owned c h₁ h₂ hne'
      have hjk : j ≠ k := by
        rintro rfl
        exact hnot hl hc
      exact ⟨j, hj, by rwa [hkeep.others j hj hjk], by rwa [Function.update_of_ne hjk]⟩

/-! ## Writes that complete -/

/-- The clusters of the old entry in the slot are the freed ones. -/
theorem Target.mem_of_live (target : Target b d chain name k cs) (hl : Live (slot b d k)) {c : ℕ}
    (hc : c ∈ chain k) : c ∈ cs := by
  cases target with
  | existing _ _ => exact hc
  | fresh _ hfree _ _ => exact (hfree hl).elim

/-- After a completed write the written entry owns the new chain. -/
theorem WriteCase.layout_done (h : Layout b d chain) {r : Disk} (hname : name.headD 0 ≠ 0)
    (hlive : name.headD 0 ≠ 0xE5) (hw : WriteCase b d chain name buffer size (.done, r)) :
    ∃ k < slots b, ∃ l, Layout b r (Function.update chain k l) ∧
      slot b r k = newEntry name (l.headD 0) size ∧ l.length = need b size := by
  cases hw with
  | done k cs l r target hlen hcard hl new entry outside mirror stored others data =>
      have hg := h.geometry
      have hkeep := h.toSound.keeps target hl entry outside others
      have hstored : (slot b r k).name = name := by rw [stored]; rfl
      refine ⟨k, target.lt, l, h.update target.lt hkeep (target.dirOk h.dir hname hstored others)
        (mirror h.mirror) ?_ ?_ ?_, stored, hlen⟩
      · intro _
        rw [stored]
        refine ⟨⟨0xFFFF, new, .inr (by decide)⟩, ?_, not_isDir_newEntry _ _ _, ?_⟩
        · intro c hc
          have := (mem_available.mp (hl c hc)).1
          omega
        · rw [hlen]
          exact size_le_need_mul hg
      · intro j hj hlj hjk c hc hcl
        exact h.toSound.not_available target hj hlj hjk hc (hl c hcl)
      · intro c _ h₂ hne
        by_cases hcl : c ∈ l
        · refine .inl ⟨?_, hcl⟩
          rw [stored]
          exact ⟨hname, hlive⟩
        · rw [entry c (hg.lt_entries h₂) hcl] at hne
          have hcs : c ∉ cs := by
            intro hcs
            exact hne (if_pos hcs)
          rw [if_neg hcs] at hne
          exact .inr ⟨hne, fun hlk hc => hcs (target.mem_of_live hlk hc)⟩

/-! ## Deletes -/

/-- A delete keeps the volume consistent. -/
theorem DeleteCase.consistent (h : Layout b d chain) {r : ℤ × Disk}
    (hd : DeleteCase b d chain name r) : Consistent b r.2 := by
  have hdir := hd.dirOk h.toSound
  cases hd with
  | missing _ => exact ⟨chain, h⟩
  | deleted k r hk hf entry outside mirror mark others =>
      have target : Target b d chain name k (chain k) := .existing k hk ⟨hf.1, hf.2.1⟩
      have hkeep := h.toSound.keeps target (l := []) (by simp) (fun x hx _ => entry x hx)
        (fun s hs hsec _ => outside s hs hsec) others
      have hdead := not_live_of_deleted mark
      refine ⟨_, h.update (l := []) hk hkeep hdir (mirror h.mirror)
        (fun hl => absurd hl hdead) (by simp) ?_⟩
      intro c _ h₂ hne
      rw [entry c (h.geometry.lt_entries h₂)] at hne
      have hc : c ∉ chain k := by
        intro hc
        exact hne (if_pos hc)
      rw [if_neg hc] at hne
      exact .inr ⟨hne, fun _ => hc⟩

end LispDos.Fat16
