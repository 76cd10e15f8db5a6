import LispDos.Kernel.Tarfs
import LispDos.Verification.Fat16.RoundTrip
import Mathlib.Data.List.GetD

/-! # Archives

What `tar` writes for a list of files, and that look-ups in it find the first file of a
name. -/

namespace LispDos.Tarfs

/-! ## Encoding -/

/-- A file of an archive, with the bytes of its header other than name and size. -/
structure Entry where
  name : List UInt8
  data : List UInt8
  fields : ℕ → UInt8
  name_ne : name ≠ []
  name_length : name.length ≤ 99
  name_chars : 0 ∉ name
  data_length : data.length < 2 ^ 31

/-- A byte of the header: the name padded with zeros and the size in eleven octal digits. -/
def Entry.headerByte (e : Entry) (i : ℕ) : UInt8 :=
  if i < 100 then e.name.getD i 0
  else if sizeField ≤ i ∧ i < sizeField + 11 then
    UInt8.ofNat (0x30 + e.data.length / 8 ^ (sizeField + 10 - i) % 8)
  else e.fields i

/-- The blocks that the data takes. -/
def Entry.blocks (e : Entry) : ℕ := (e.data.length + 511) / 512

def Entry.encode (e : Entry) : List UInt8 :=
  (List.range 512).map e.headerByte ++
    (e.data ++ List.replicate (e.blocks * 512 - e.data.length) 0)

def encode (es : List Entry) : List UInt8 := es.flatMap Entry.encode

/-- The end of the image, or a zero block. -/
def IsEnd (rest : List UInt8) : Prop := rest = [] ∨ ∃ after, rest = List.replicate 512 0 ++ after

variable {r : Ramdisk} {bytes : ℕ → UInt8} {es : List Entry} {e : Entry} {offset n : ℕ}
  {xs ys rest filename : List UInt8}

/-- The bytes are in memory from the offset on. -/
def At (bytes : ℕ → UInt8) (offset : ℕ) (xs : List UInt8) : Prop :=
  ∀ i < xs.length, bytes (offset + i) = xs.getD i 0

/-- The ramdisk is the image of the archive. -/
structure Holds (r : Ramdisk) (es : List Entry) (rest : List UInt8) : Prop where
  isEnd : IsEnd rest
  size : r.size = (encode es ++ rest).length
  bytes : At r.bytes 0 (encode es ++ rest)

theorem At.left (h : At bytes offset (xs ++ ys)) : At bytes offset xs := by
  intro i hi
  rw [h i (by rw [List.length_append]; omega), List.getD_append _ _ _ _ hi]

theorem At.right (h : At bytes offset (xs ++ ys)) : At bytes (offset + xs.length) ys := by
  intro i hi
  have hi' := h (xs.length + i) (by rw [List.length_append]; omega)
  rw [List.getD_append_right _ _ _ _ (Nat.le_add_right _ _), Nat.add_sub_cancel_left] at hi'
  rw [Nat.add_assoc, hi']

theorem Entry.length_encode (e : Entry) : e.encode.length = 512 + e.blocks * 512 := by
  have hroom : e.data.length ≤ e.blocks * 512 := by
    rw [Entry.blocks]
    omega
  rw [Entry.encode, List.length_append, List.length_append, List.length_map, List.length_range,
    List.length_replicate, Nat.add_sub_cancel' hroom]

/-! ## Fields -/

theorem At.headerByte (h : At bytes offset e.encode) {i : ℕ} (hi : i < 512) :
    bytes (offset + i) = e.headerByte i := by
  have hlength : ((List.range 512).map e.headerByte).length = 512 := by simp
  rw [h.left i (by rw [hlength]; exact hi),
    List.getD_eq_getElem _ _ (by rw [hlength]; exact hi), List.getElem_map, List.getElem_range]

/-- The comparison ends at the terminator of the name in the header. -/
theorem sameName_iff {name : List UInt8} (hfilename : 0 ∉ filename) (hname : 0 ∉ name)
    (h : ∀ i ≤ name.length, bytes (offset + i) = name.getD i 0) :
    sameName bytes offset filename = true ↔ name = filename := by
  induction filename generalizing offset name with
  | nil =>
      have hfirst := h 0 (Nat.zero_le _)
      rw [Nat.add_zero] at hfirst
      cases name with
      | nil => simpa [sameName] using hfirst
      | cons d ds =>
          have hd : d ≠ 0 := fun hd => hname (by simp [hd])
          simpa [sameName, hfirst] using hd
  | cons c cs ih =>
      have hfirst := h 0 (Nat.zero_le _)
      rw [Nat.add_zero] at hfirst
      cases name with
      | nil =>
          have hc : (0 : UInt8) ≠ c := fun hc => hfilename (by simp [hc])
          simp [sameName, hfirst, hc]
      | cons d ds =>
          have htail : ∀ i ≤ ds.length, bytes (offset + 1 + i) = ds.getD i 0 := by
            intro i hi
            rw [Nat.add_assoc, Nat.add_comm 1 i, h (i + 1) (Nat.succ_le_succ hi)]
            rfl
          have hrest := ih (fun hz => hfilename (List.mem_cons_of_mem c hz))
            (fun hz => hname (List.mem_cons_of_mem d hz)) htail
          rw [sameName, hfirst, Bool.and_eq_true, beq_iff_eq, hrest, List.cons.injEq]
          rfl

theorem octalToInt_digits {x : ℕ} (hdigits : ∀ i < n,
    bytes (offset + i) = UInt8.ofNat (0x30 + x / 8 ^ (n - 1 - i) % 8)) (acc : ℕ) :
    octalToInt bytes offset n acc = acc * 8 ^ n + x % 8 ^ n := by
  induction n generalizing offset acc with
  | zero => simp [octalToInt, Nat.mod_one]
  | succ n ih =>
      have hfirst := hdigits 0 (Nat.succ_pos n)
      rw [Nat.add_zero, Nat.add_sub_cancel, Nat.sub_zero] at hfirst
      have hrest : ∀ i < n, bytes (offset + 1 + i) = UInt8.ofNat (0x30 + x / 8 ^ (n - 1 - i) % 8) := by
        intro i hi
        have hnext := hdigits (i + 1) (Nat.succ_lt_succ hi)
        have hexp : n + 1 - 1 - (i + 1) = n - 1 - i := by omega
        rw [hexp] at hnext
        rw [Nat.add_assoc, Nat.add_comm 1 i, hnext]
      -- every digit is one of the characters `0` to `7`
      have hdigit : ∀ k < 8, ¬ UInt8.ofNat (0x30 + k) = 0 ∧ 0x30 ≤ UInt8.ofNat (0x30 + k) ∧
          UInt8.ofNat (0x30 + k) ≤ 0x37 ∧ (UInt8.ofNat (0x30 + k)).toNat - 0x30 = k := by decide
      obtain ⟨hne, hlow, hhigh, hvalue⟩ := hdigit _ (Nat.mod_lt (x / 8 ^ n) (by decide))
      have hpow : 8 ^ (n + 1) = 8 ^ n * 8 := Nat.pow_succ 8 n
      have hsplit := Nat.mod_mul (x := x) (a := 8 ^ n) (b := 8)
      unfold octalToInt
      simp only [hfirst, if_neg hne, if_pos (And.intro hlow hhigh), hvalue]
      rw [ih hrest, hpow, hsplit, Nat.add_mul, Nat.mul_assoc, Nat.mul_comm 8 (8 ^ n),
        Nat.mul_comm (x / 8 ^ n % 8)]
      omega

theorem At.size (h : At bytes offset e.encode) :
    octalToInt bytes (offset + sizeField) 11 0 = e.data.length := by
  have hlt := e.data_length
  rw [octalToInt_digits (x := e.data.length) ?_, Nat.zero_mul, Nat.zero_add,
    Nat.mod_eq_of_lt (by omega)]
  intro i hi
  have hexp : sizeField + 10 - (sizeField + i) = 11 - 1 - i := by omega
  rw [Nat.add_assoc, h.headerByte (by simp only [sizeField]; omega), Entry.headerByte,
    if_neg (by simp only [sizeField]; omega), if_pos ⟨Nat.le_add_right _ _, by omega⟩, hexp]

theorem At.sameName_iff (h : At bytes offset e.encode) (hfilename : 0 ∉ filename) :
    sameName bytes offset filename = true ↔ e.name = filename := by
  refine Tarfs.sameName_iff hfilename e.name_chars ?_
  intro i hi
  have hlength := e.name_length
  rw [h.headerByte (by omega), Entry.headerByte, if_pos (by omega)]

theorem At.data (h : At bytes offset e.encode) : At bytes (offset + 512) e.data := by
  have hlength : ((List.range 512).map e.headerByte).length = 512 := by simp
  have hright := h.right
  rw [hlength] at hright
  exact hright.left

/-! ## Look-ups -/

theorem IsEnd.stops (h : IsEnd rest) (hat : At bytes offset rest) :
    rest.length = 0 ∨ bytes offset = 0 := by
  rcases h with rfl | ⟨after, rfl⟩
  · exact .inl rfl
  · have hblock : List.replicate 512 (0 : UInt8) = 0 :: List.replicate 511 0 := List.replicate_succ
    rw [hblock, List.cons_append] at hat
    exact .inr (hat 0 (Nat.succ_pos _))

/-- Each round of the walk comes to the next header, so it stops at the first entry of the
name. -/
theorem findEntry_spec (hrest : IsEnd rest) (hfilename : 0 ∉ filename) (es : List Entry) {n : ℕ}
    (hn : es.length < n) (hsize : r.size = offset + (encode es ++ rest).length)
    (hat : At r.bytes offset (encode es ++ rest)) :
    match es.find? fun e => e.name = filename with
    | none => findEntry r filename n offset = none
    | some e => ∃ start, findEntry r filename n offset = some (start, e.data.length) ∧
        At r.bytes (start + 512) e.data := by
  induction es generalizing n offset with
  | nil =>
      obtain ⟨n, rfl⟩ := Nat.exists_eq_succ_of_ne_zero (Nat.ne_of_gt hn)
      have hstop := hrest.stops hat.right
      simp only [encode, List.flatMap_nil, List.nil_append, List.length_nil, Nat.add_zero] at hsize hstop
      rw [List.find?_nil]
      show findEntry r filename (n + 1) offset = none
      unfold findEntry
      by_cases hlt : offset < r.size
      · have hzero : r.bytes offset = 0 := hstop.resolve_left (by omega)
        rw [if_pos hlt, if_pos hzero]
      · rw [if_neg hlt]
  | cons e es ih =>
      obtain ⟨n, rfl⟩ := Nat.exists_eq_succ_of_ne_zero (Nat.ne_of_gt (Nat.zero_lt_of_lt hn))
      have hencode : encode (e :: es) ++ rest = e.encode ++ (encode es ++ rest) := by
        rw [encode, List.flatMap_cons, List.append_assoc, encode]
      rw [hencode] at hsize hat
      have hfirst := hat.left
      have hlength := e.length_encode
      rw [List.length_append, hlength] at hsize
      have hlt : offset < r.size := by omega
      have hzero : ¬ r.bytes offset = 0 := by
        have hbyte := hfirst.headerByte (i := 0) (by decide)
        rw [Nat.add_zero, Entry.headerByte, if_pos (by decide)] at hbyte
        rw [hbyte]
        obtain ⟨c, cs, hname⟩ := List.exists_cons_of_ne_nil e.name_ne
        intro hc
        have hchars := e.name_chars
        rw [hname] at hc hchars
        exact hchars (by simp [show c = 0 from hc])
      unfold findEntry
      rw [if_pos hlt, if_neg hzero, hfirst.size]
      by_cases hname : e.name = filename
      · rw [List.find?_cons_of_pos (by simpa using hname)]
        simp only [(hfirst.sameName_iff hfilename).mpr hname, if_true]
        exact ⟨offset, rfl, hfirst.data⟩
      · have hother : ¬ sameName r.bytes offset filename = true :=
          fun h => hname ((hfirst.sameName_iff hfilename).mp h)
        rw [List.find?_cons_of_neg (by simpa using hname)]
        simp only [if_neg hother]
        have hnext := hat.right
        rw [hlength, Entry.blocks] at hnext
        rw [Entry.blocks] at hsize
        exact ih (Nat.lt_of_succ_lt_succ hn) (by omega) hnext

theorem length_le_length_encode (es : List Entry) : 512 * es.length ≤ (encode es).length := by
  induction es with
  | nil => exact Nat.zero_le _
  | cons e es ih =>
      have hlength := e.length_encode
      rw [encode, List.flatMap_cons, List.length_append, List.length_cons, hlength]
      rw [encode] at ih
      omega

/-- The walk over the whole image. -/
theorem Holds.lookup (h : Holds r es rest) (hfilename : 0 ∉ filename) :
    match es.find? fun e => e.name = filename with
    | none => lookup (some r) filename = none
    | some e => ∃ start, lookup (some r) filename = some (start, e.data.length) ∧
        At r.bytes (start + 512) e.data := by
  have hsize := h.size
  have hcount := length_le_length_encode es
  rw [List.length_append] at hsize
  refine findEntry_spec h.isEnd hfilename es (n := r.size / 512 + 1) ?_ ?_ h.bytes
  · omega
  · rw [Nat.zero_add, h.size]

/-- Look-ups in the image of an archive give the size and the data of the first entry of the
name. -/
theorem tarfs_decodes_archive (h : Holds r es rest) (hfilename : 0 ∉ filename) :
    tarfsGetFileSize (some r) filename =
        (es.find? fun e => e.name = filename).elim 0 (·.data.length) ∧
      (tarfsReadFile (some r) filename).1 = tarfsGetFileSize (some r) filename ∧
      (tarfsReadFile (some r) filename).2 =
        (es.find? fun e => e.name = filename).elim [] fun e =>
          (List.range e.data.length).map fun i => (i, e.data.getD i 0) := by
  have hlookup := h.lookup hfilename
  cases hfind : es.find? fun e => e.name = filename with
  | none =>
      rw [hfind] at hlookup
      unfold tarfsGetFileSize tarfsReadFile
      rw [hlookup]
      exact ⟨rfl, rfl, rfl⟩
  | some e =>
      rw [hfind] at hlookup
      obtain ⟨start, hlookup, hdata⟩ := hlookup
      have hlt := e.data_length
      unfold tarfsGetFileSize tarfsReadFile
      rw [hlookup]
      refine ⟨rfl, ?_, ?_⟩
      · simp only [Option.map_some, Option.getD_some]
        exact Fat16.toInt32_of_lt hlt
      · refine List.map_congr_left ?_
        intro i hi
        rw [hdata i (List.mem_range.mp hi)]

/-- An archive with the file `a` twice, of one and of two bytes. -/
def sampleEntries : List Entry :=
  [⟨[0x61], [7], fun _ => 0, by decide, by decide, by decide, by decide⟩,
    ⟨[0x61], [8, 9], fun _ => 0, by decide, by decide, by decide, by decide⟩]

/-- Its image, up to the last block. -/
def sampleRamdisk : Ramdisk where
  bytes i := (encode sampleEntries).getD i 0
  size := (encode sampleEntries).length
  physical := by decide +kernel

theorem tarfs_decodes_archive_sample :
    tarfsGetFileSize (some sampleRamdisk) [0x61] = 1 ∧
      (tarfsReadFile (some sampleRamdisk) [0x61]).1 = tarfsGetFileSize (some sampleRamdisk) [0x61] ∧
      (tarfsReadFile (some sampleRamdisk) [0x61]).2 = [(0, 7)] := by
  have hholds : Holds sampleRamdisk sampleEntries [] := by
    refine ⟨.inl rfl, by simp only [sampleRamdisk, List.append_nil], ?_⟩
    intro i _
    simp only [sampleRamdisk, List.append_nil, Nat.zero_add]
  have hfirst : sampleEntries.find? (fun e => e.name = [0x61]) = sampleEntries.head? := rfl
  have hfilename : (0 : UInt8) ∉ [0x61] := by decide
  obtain ⟨hsize, hresult, hstores⟩ := tarfs_decodes_archive hholds hfilename
  rw [hfirst] at hsize hstores
  exact ⟨hsize, hresult, hstores⟩

end LispDos.Tarfs
