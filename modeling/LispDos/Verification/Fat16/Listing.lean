import LispDos.Kernel.Fat16Dir
import LispDos.Verification.Fat16.Names
import LispDos.Verification.Fat16.Stored

/-! # Listed names

`fat16_dir` prints a directory name without its spaces. The text is a name of the same file
exactly if all the spaces of the two fields were padding. -/

namespace LispDos.Fat16

open Console

variable {b : Bpb} {d r : Disk} {s t filename : List UInt8} {width : ℕ} {e : DirEntry}

/-! ## Spaces -/

/-- There is nothing but spaces behind the first space. -/
def SpacesLast (s : List UInt8) : Prop := ∀ c ∈ s.dropWhile (· ≠ 0x20), c = 0x20

theorem mem_visible {c : UInt8} : c ∈ visible s ↔ c ∈ s ∧ c ≠ 0x20 := by
  rw [visible, List.mem_filter, decide_eq_true_iff]

theorem not_mem_visible (s : List UInt8) : 0x20 ∉ visible s :=
  fun h => (mem_visible.mp h).2 rfl

theorem visible_eq_self (h : 0x20 ∉ s) : visible s = s := by
  apply List.filter_eq_self.mpr
  intro c hc
  exact decide_eq_true fun heq => h (heq ▸ hc)

theorem length_visible_le (s : List UInt8) : (visible s).length ≤ s.length :=
  List.length_filter_le _ s

theorem spacesLast_of_not_mem (h : 0x20 ∉ s) (n : ℕ) :
    SpacesLast (s ++ List.replicate n 0x20) := by
  have hdrop : s.dropWhile (· ≠ 0x20) = [] := by
    rw [List.dropWhile_eq_nil_iff]
    intro c hc
    exact decide_eq_true fun heq => h (heq ▸ hc)
  unfold SpacesLast
  rw [List.dropWhile_append, hdrop]
  intro c hc
  exact List.eq_of_mem_replicate ((List.dropWhile_suffix _).subset hc)

theorem SpacesLast.visible_eq (h : SpacesLast s) : visible s = s.takeWhile (· ≠ 0x20) := by
  have hrest : visible (s.dropWhile (· ≠ 0x20)) = [] := by
    apply List.filter_eq_nil_iff.mpr
    intro c hc
    simp [h c hc]
  have hfirst : visible (s.takeWhile (· ≠ 0x20)) = s.takeWhile (· ≠ 0x20) := by
    apply visible_eq_self
    intro hmem
    have hne := List.mem_takeWhile_imp hmem
    simp at hne
  calc visible s = visible (s.takeWhile (· ≠ 0x20) ++ s.dropWhile (· ≠ 0x20)) := by
        rw [List.takeWhile_append_dropWhile]
    _ = s.takeWhile (· ≠ 0x20) := by
        rw [visible, List.filter_append, ← visible, ← visible, hfirst, hrest, List.append_nil]

/-- A word that is put into a field of its own length without its spaces comes back exactly if
these were the last characters. -/
theorem padName_visible_iff (h : s.length = width) :
    padName width (visible s) = s ↔ SpacesLast s := by
  constructor
  · intro heq
    rw [← heq, padName, List.take_append, List.take_of_length_le
      ((length_visible_le s).trans_eq h), List.take_replicate]
    exact spacesLast_of_not_mem (not_mem_visible s) _
  · intro hs
    have hpad : s.dropWhile (· ≠ 0x20) =
        List.replicate (s.dropWhile (· ≠ 0x20)).length 0x20 := List.eq_replicate_of_mem hs
    have hsplit : s.takeWhile (· ≠ 0x20) ++ s.dropWhile (· ≠ 0x20) = s :=
      List.takeWhile_append_dropWhile
    have hlength := congrArg List.length hsplit
    rw [List.length_append] at hlength
    rw [padName, hs.visible_eq, List.take_append, List.take_of_length_le (by omega),
      List.take_replicate]
    calc s.takeWhile (· ≠ 0x20) ++
          List.replicate (min (width - (s.takeWhile (· ≠ 0x20)).length) width) 0x20
        = s.takeWhile (· ≠ 0x20) ++ List.replicate (s.dropWhile (· ≠ 0x20)).length 0x20 := by
          congr 2
          omega
      _ = s := by rw [← hpad, hsplit]

/-! ## The two fields -/

theorem spacesLast_map (s : List UInt8) : SpacesLast (s.map fatUpper) ↔ SpacesLast s := by
  have hspace : ∀ c, (decide (fatUpper c ≠ 0x20)) = decide (c ≠ 0x20) := by
    intro c
    rw [decide_eq_decide, ne_eq, fatUpper_eq_space_iff]
  have hcomp : ((fun c : UInt8 => decide (c ≠ 0x20)) ∘ fatUpper) = fun c => decide (c ≠ 0x20) :=
    funext hspace
  unfold SpacesLast
  rw [List.dropWhile_map, hcomp, List.forall_mem_map]
  exact forall₂_congr fun c _ => fatUpper_eq_space_iff

theorem spacesLast_append (s : List UInt8) (n : ℕ) :
    SpacesLast (s ++ List.replicate n 0x20) ↔ SpacesLast s := by
  by_cases hs : 0x20 ∈ s
  · have hdrop : s.dropWhile (· ≠ 0x20) ≠ [] := by
      rw [ne_eq, List.dropWhile_eq_nil_iff]
      intro hall
      simpa using hall 0x20 hs
    unfold SpacesLast
    rw [List.dropWhile_append, if_neg (by simpa using hdrop), List.forall_mem_append]
    exact and_iff_left fun c hc => List.eq_of_mem_replicate hc
  · refine iff_of_true (spacesLast_of_not_mem hs n) ?_
    have hlast := spacesLast_of_not_mem hs 0
    rwa [List.replicate_zero, List.append_nil] at hlast

/-- A field is padded with spaces, so that only those of the word count. -/
theorem spacesLast_field (s : List UInt8) (width : ℕ) :
    SpacesLast (field width s) ↔ SpacesLast (s.take width) := by
  rw [field, padName, List.take_append, List.take_of_length_le (by simp), List.take_replicate,
    spacesLast_append, spacesLast_map]

/-- The characters of a field are capital. -/
theorem map_fatUpper_field (s : List UInt8) (width : ℕ) :
    (field width s).map fatUpper = field width s := by
  apply List.ext_getElem?
  intro i
  rw [List.getElem?_map]
  by_cases hi : i < width
  · rw [getElem?_field s hi, Option.map_some, fatUpper_fatUpper]
  · rw [List.getElem?_eq_none (by rw [length_field]; omega)]
    rfl

theorem map_fatUpper_visible (h : s.map fatUpper = s) :
    (visible s).map fatUpper = visible s := by
  induction s with
  | nil => rfl
  | cons c s ih =>
      rw [List.map_cons] at h
      obtain ⟨hc, hs⟩ := List.cons.inj h
      have htail := ih hs
      unfold visible at htail ⊢
      rw [List.filter_cons]
      split_ifs
      · rw [List.map_cons, hc, htail]
      · exact htail

/-- A field without its spaces gives the same field exactly if its spaces were the last
characters. -/
theorem field_visible_iff (s : List UInt8) (width : ℕ) :
    field width (visible (field width s)) = field width s ↔ SpacesLast (s.take width) := by
  have hlength := length_field width s
  have hle := (length_visible_le (field width s)).trans_eq hlength
  have hfield : field width (visible (field width s)) =
      padName width (visible (field width s)) := by
    rw [field, List.take_of_length_le hle, map_fatUpper_visible (map_fatUpper_field s width)]
  rw [hfield, padName_visible_iff hlength, spacesLast_field]

/-- No other character becomes a dot or a zero. -/
theorem not_mem_field {c : UInt8} (hc : c.toNat < 65) (hspace : c ≠ 0x20) (h : c ∉ s) :
    c ∉ field width s := by
  intro hmem
  rw [field, padName] at hmem
  cases List.mem_append.mp (List.mem_of_mem_take hmem) with
  | inl hword =>
      obtain ⟨x, hx, heq⟩ := List.mem_map.mp hword
      rw [fatUpper_eq_iff hc] at heq
      exact h (heq ▸ List.mem_of_mem_take hx)
  | inr hpad => exact hspace (List.eq_of_mem_replicate hpad)

/-! ## The printed name -/

theorem nameBase_of_not_mem (h : 0x2E ∉ s) : nameBase s = s := by
  rw [nameBase, List.idxOf_eq_length h, List.take_length]

theorem nameExt_of_not_mem (h : 0x2E ∉ s) : nameExt s = [] := by
  rw [nameExt, List.idxOf_eq_length h]
  exact List.drop_eq_nil_of_le (Nat.le_succ _)

theorem nameBase_append (h : 0x2E ∉ s) (t : List UInt8) : nameBase (s ++ 0x2E :: t) = s := by
  rw [nameBase, List.idxOf_append_of_notMem h, List.idxOf_cons_self, Nat.add_zero, List.take_left]

theorem nameExt_append (h : 0x2E ∉ s) (t : List UInt8) : nameExt (s ++ 0x2E :: t) = t := by
  rw [nameExt, List.idxOf_append_of_notMem h, List.idxOf_cons_self, Nat.add_zero,
    ← List.drop_drop, List.drop_left, List.drop_one, List.tail_cons]

theorem not_mem_nameBase (s : List UInt8) : 0x2E ∉ nameBase s := by
  rw [← takeWhile_dot]
  intro hmem
  have hne := List.mem_takeWhile_imp hmem
  simp at hne

theorem append_fields_iff {s' t' : List UInt8} :
    field width s ++ t = field width s' ++ t' ↔ field width s = field width s' ∧ t = t' := by
  constructor
  · intro h
    exact List.append_inj h (by rw [length_field, length_field])
  · intro h
    rw [h.1, h.2]

/-- A field that begins with a space is empty exactly if its spaces are last. -/
theorem field_nil_iff (hhead : (field width s).headD 0x20 = 0x20) :
    field width [] = field width s ↔ SpacesLast (s.take width) := by
  have hnil : field width [] = List.replicate width 0x20 := by
    rw [field, List.take_nil, List.map_nil, padName, List.nil_append, List.take_replicate,
      Nat.min_self]
  have hdrop : (field width s).dropWhile (· ≠ 0x20) = field width s := by
    cases hfield : field width s with
    | nil => rfl
    | cons c cs =>
        rw [hfield, List.headD_cons] at hhead
        rw [List.dropWhile_cons_of_neg (by simp [hhead])]
  rw [hnil, eq_comm, List.eq_replicate_iff, ← spacesLast_field, SpacesLast, hdrop]
  exact and_iff_right (length_field width s)

/-- The printed name is a name of the same file exactly if neither the eight characters of the
base nor the three of the extension have a space before another character. -/
theorem formatFatName_dirName_iff (hs : 0 ∉ s) (hname : e.name = formatFatName s) :
    formatFatName (dirName e) = formatFatName s ↔
      SpacesLast ((nameBase s).take 8) ∧ SpacesLast ((nameExt s).take 3) := by
  have hbase : 0 ∉ nameBase s := fun hmem => hs (List.mem_of_mem_take hmem)
  have hext : 0 ∉ nameExt s := fun hmem => hs (List.mem_of_mem_drop hmem)
  have hfirst : e.name.take 8 = field 8 (nameBase s) := by
    rw [hname, formatFatName_eq hs, List.take_left' (length_field 8 _)]
  have hlast : e.name.drop 8 = field 3 (nameExt s) := by
    rw [hname, formatFatName_eq hs, List.drop_left' (length_field 8 _)]
  have hzero₁ : 0 ∉ visible (field 8 (nameBase s)) :=
    fun hmem => not_mem_field (by decide) (by decide) hbase (mem_visible.mp hmem).1
  have hzero₂ : 0 ∉ visible (field 3 (nameExt s)) :=
    fun hmem => not_mem_field (by decide) (by decide) hext (mem_visible.mp hmem).1
  have hdot : 0x2E ∉ visible (field 8 (nameBase s)) :=
    fun hmem => not_mem_field (by decide) (by decide) (not_mem_nameBase s) (mem_visible.mp hmem).1
  rw [formatFatName_eq hs, dirName, hfirst, hlast]
  by_cases hhead : (field 3 (nameExt s)).headD 0x20 = 0x20
  · -- an extension that begins with a space is not printed
    rw [if_neg (not_not.mpr hhead), List.append_nil, formatFatName_eq hzero₁,
      nameBase_of_not_mem hdot, nameExt_of_not_mem hdot, append_fields_iff, field_visible_iff,
      field_nil_iff hhead]
  · have hzero : 0 ∉ visible (field 8 (nameBase s)) ++ 0x2E :: visible (field 3 (nameExt s)) := by
      rw [List.mem_append, List.mem_cons, not_or, not_or]
      exact ⟨hzero₁, by decide, hzero₂⟩
    rw [if_pos hhead, formatFatName_eq hzero, nameBase_append hdot, nameExt_append hdot,
      append_fields_iff, field_visible_iff, field_visible_iff]

/-! ## The listing -/

theorem rootEntries_eq (b : Bpb) (d : Disk) :
    rootEntries b d = (List.range (slots b)).map (slot b d) := by
  unfold rootEntries slots
  induction b.rootDirSize with
  | zero => rfl
  | succ n ih =>
      have hsector : ∀ i ∈ List.range 16, dirEntryAt (ataReadSector d (b.rootDirSector + n)) i =
          slot b d (16 * n + i) := by
        intro i hi
        have hi := List.mem_range.mp hi
        have hdiv : (16 * n + i) / 16 = n := by omega
        have hmod : (16 * n + i) % 16 = i := by omega
        rw [slot, hdiv, hmod]
        rfl
      have hsucc : List.range (n + 1) = List.range n ++ [n] := List.range_succ
      rw [hsucc, List.flatMap_append, ih, List.flatMap_singleton, Nat.mul_succ, List.range_add,
        List.map_append, List.map_map]
      exact congrArg _ (List.map_congr_left hsector)

/-- The loop prints the live entries before the end mark, long names apart. -/
theorem mem_dirLoop_iff {es : List DirEntry}
    (hended : es.Pairwise fun x y => x.mark = 0 → ¬ Live y) :
    e ∈ dirLoop es ↔ e ∈ es ∧ Live e ∧ e.attributes ≠ 0x0F := by
  induction es with
  | nil => simp [dirLoop]
  | cons x es ih =>
      obtain ⟨hx, hes⟩ := List.pairwise_cons.mp hended
      have htail := ih hes
      rw [dirLoop, List.mem_cons]
      by_cases hzero : x.mark = 0
      · rw [if_pos hzero]
        refine iff_of_false List.not_mem_nil ?_
        intro h
        cases h.1 with
        | inl heq => exact h.2.1.1 (heq ▸ hzero)
        | inr hmem => exact hx e hmem hzero h.2.1
      · rw [if_neg hzero]
        by_cases hdeleted : x.mark = 0xE5
        · rw [if_pos hdeleted, htail]
          refine and_congr_left fun h => (or_iff_right ?_).symm
          intro heq
          exact h.1.2 (heq ▸ hdeleted)
        · rw [if_neg hdeleted]
          by_cases hlong : x.attributes = 0x0F
          · rw [if_pos hlong, htail]
            refine and_congr_left fun h => (or_iff_right ?_).symm
            intro heq
            exact h.2 (heq ▸ hlong)
          · rw [if_neg hlong, List.mem_cons, htail, or_and_right]
            refine or_congr_left (iff_self_and.mpr ?_)
            intro heq
            rw [heq]
            exact ⟨⟨hzero, hdeleted⟩, hlong⟩

/-- A well-formed directory is listed in full. -/
theorem DirOk.mem_listed_iff (h : DirOk b d) :
    e ∈ listed b d ↔ ∃ k < slots b, slot b d k = e ∧ Live e ∧ e.attributes ≠ 0x0F := by
  have hended : ((List.range (slots b)).map (slot b d)).Pairwise
      fun x y => x.mark = 0 → ¬ Live y := by
    rw [List.pairwise_map]
    refine List.pairwise_lt_range.imp_of_mem ?_
    intro i j _ hj hij
    exact h.ended i j hij (List.mem_range.mp hj)
  rw [listed, rootEntries_eq, mem_dirLoop_iff hended, List.mem_map]
  simp only [List.mem_range]
  constructor
  · intro ⟨⟨k, hk, heq⟩, hrest⟩
    exact ⟨k, hk, heq, hrest⟩
  · intro ⟨k, hk, heq, hrest⟩
    exact ⟨⟨k, hk, heq⟩, hrest⟩

/-- The name of every listed entry is printed. -/
theorem dirName_printed (h : e ∈ listed b d) : (dirName e).map Op.putchar <:+: fat16Dir b d := by
  have hline : (dirName e).map Op.putchar <:+: dirLine e := (List.prefix_append _ _).isInfix
  have hlines : dirLine e <:+: (listed b d).flatMap dirLine := by
    rw [List.flatMap_def]
    exact List.infix_of_mem_flatten (List.mem_map_of_mem h)
  refine (hline.trans hlines).trans ?_
  exact ⟨[.print (kernelText "\n Pasta do HD (FAT16):\n\n")], _, rfl⟩

/-! ## After a write -/

/-- The entry of the name is listed, and what is printed for it is a name of the same file. -/
structure ListedName (b : Bpb) (d : Disk) (filename : List UInt8) : Prop where
  found : ∃ e ∈ listed b d, e.name = formatFatName filename
  same : ∀ e ∈ listed b d, e.name = formatFatName filename →
    formatFatName (dirName e) = formatFatName filename

theorem WriteCase.listed_under_name {chain : ℕ → List ℕ} {buffer : ℕ → UInt8} {size : ℕ}
    (hw : WriteCase b d chain (formatFatName filename) buffer size (.done, r)) (hdir : DirOk b d)
    (hname : 0 ∉ filename) :
    ListedName b r filename ↔
      filename.head? ≠ some 0xE5 ∧ SpacesLast ((nameBase filename).take 8) ∧
        SpacesLast ((nameExt filename).take 3) := by
  cases hw with
  | done k cs l r target hlen hcard hl new entry outside mirror stored others data =>
      have hdir : DirOk b r := target.dirOk hdir (headD_formatFatName_ne_zero filename)
        (by rw [stored]; rfl) others
      constructor
      · intro hlisted
        obtain ⟨e, he, heq⟩ := hlisted.found
        obtain ⟨j, _, _, hlive, _⟩ := hdir.mem_listed_iff.mp he
        refine ⟨?_, (formatFatName_dirName_iff hname heq).mp (hlisted.same e he heq)⟩
        intro hhead
        apply hlive.2
        rw [DirEntry.mark, heq, headD_formatFatName_deleted hhead]
      · intro hcond
        constructor
        · refine ⟨_, hdir.mem_listed_iff.mpr ⟨k, target.lt, stored, ?_, ?_⟩, rfl⟩
          · exact live_newEntry hcond.1 _ _
          · show (0x20 : UInt8) ≠ 0x0F
            decide
        · intro e _ heq
          exact (formatFatName_dirName_iff hname heq).mpr hcond.2

/-- On a consistent volume a stored file can be used under its listed name exactly if its name
does not begin with the deleted mark and has a space before another character neither in the
eight characters of the base nor in the three of the extension. -/
theorem listedName_iff (h : Consistent b d) (hname : 0 ∉ filename) (buffer : ℕ → UInt8)
    (size : UInt32) (hdone : (fat16WriteRun b d filename buffer size).1 = .done) :
    ListedName b (fat16WriteRun b d filename buffer size).2 filename ↔
      filename.head? ≠ some 0xE5 ∧ SpacesLast ((nameBase filename).take 8) ∧
        SpacesLast ((nameExt filename).take 3) := by
  obtain ⟨chain, h⟩ := h
  have hw := fat16WriteRun_cases h.toSound filename buffer size
  have hrun : fat16WriteRun b d filename buffer size =
      (.done, (fat16WriteRun b d filename buffer size).2) := Prod.ext hdone rfl
  rw [hrun] at hw
  exact hw.listed_under_name h.dir hname

/-- The file `A B` on the blank small volume is listed as `AB`. -/
theorem not_listedName_space :
    Consistent (smallBpb 6) blankDisk ∧
      (fat16WriteRun (smallBpb 6) blankDisk [0x41, 0x20, 0x42] (fun _ => 7) 1).1 = .done ∧
      ¬ ListedName (smallBpb 6)
        (fat16WriteRun (smallBpb 6) blankDisk [0x41, 0x20, 0x42] (fun _ => 7) 1).2
        [0x41, 0x20, 0x42] := by
  have hlayout := blankDisk_layout smallBpb_six fun _ => []
  have hdone := small_write_done_name [0x41, 0x20, 0x42] fun _ => 7
  have hw := fat16WriteRun_cases hlayout.toSound [0x41, 0x20, 0x42] (fun _ => 7) 1
  have hrun : fat16WriteRun (smallBpb 6) blankDisk [0x41, 0x20, 0x42] (fun _ => 7) 1 =
      (.done, (fat16WriteRun (smallBpb 6) blankDisk [0x41, 0x20, 0x42] (fun _ => 7) 1).2) :=
    Prod.ext hdone rfl
  rw [hrun] at hw
  refine ⟨⟨_, hlayout⟩, hdone, ?_⟩
  rw [hw.listed_under_name hlayout.dir (by decide)]
  intro hcond
  exact absurd (hcond.2.1 0x42 (by decide)) (by decide)

/-- The file `A` on the blank small volume. -/
theorem listedName_iff_small :
    ListedName (smallBpb 6) (fat16WriteRun (smallBpb 6) blankDisk [0x41] (fun _ => 7) 1).2 [0x41] ↔
      [(0x41 : UInt8)].head? ≠ some 0xE5 ∧ SpacesLast ((nameBase [0x41]).take 8) ∧
        SpacesLast ((nameExt [0x41]).take 3) :=
  listedName_iff ⟨fun _ => [], blankDisk_layout smallBpb_six _⟩ (by decide) (fun _ => 7) 1
    (small_write_done _)

end LispDos.Fat16
