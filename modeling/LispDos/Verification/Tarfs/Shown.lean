import LispDos.Verification.Tarfs.Archive
import LispDos.Verification.Tarfs.Truncated

/-! # What is shown of an archive

On the image of an archive, `tarfs_dir` lists the names of its files in their order, and
`tarfs_type` shows the data of the first entry of a name. -/

namespace LispDos.Tarfs

open Console Foundation

variable {β : Type} {r : Ramdisk} {es : List Entry} {e : Entry} {rest filename : List UInt8}
  {offset n : ℕ} {screen : List Op}

/-! ## Walks over an archive -/

/-- What a walk shows of the entries, and where it stops. -/
def walkEntries (visit : Entry → List Op × Option β) : List Entry → List Op × Option β
  | [] => ([], none)
  | e :: es =>
      match visit e with
      | (ops, some x) => (ops, some x)
      | (ops, none) => (ops ++ (walkEntries visit es).1, (walkEntries visit es).2)

/-- The header and the data of an entry are in the ramdisk. -/
structure Placed (r : Ramdisk) (offset : ℕ) (e : Entry) : Prop where
  bytes : At r.bytes offset e.encode
  inside : offset + e.encode.length ≤ r.size

theorem Entry.data_length_le (e : Entry) : e.data.length ≤ e.blocks * 512 := by
  rw [Entry.blocks]
  omega

theorem Placed.header_inside (h : Placed r offset e) {i : ℕ} (hi : i < 512) :
    offset + i < r.size := by
  have hinside := h.inside
  rw [e.length_encode] at hinside
  omega

theorem Placed.header (h : Placed r offset e) : Header r offset := by
  refine ⟨h.header_inside (i := 0) (by decide), ?_⟩
  have hbyte := h.bytes.headerByte (i := 0) (by decide)
  rw [Nat.add_zero, Entry.headerByte, if_pos (by decide)] at hbyte
  rw [hbyte]
  obtain ⟨c, cs, hname⟩ := List.exists_cons_of_ne_nil e.name_ne
  intro hc
  have hchars := e.name_chars
  rw [hname] at hc hchars
  exact hchars (by simp [show c = 0 from hc])

theorem Placed.size (h : Placed r offset e) :
    octalToIntIn r (offset + sizeField) 11 0 = some e.data.length := by
  refine octalToIntIn_eq_some_iff.mpr ⟨fun i hi _ => ?_, h.bytes.size⟩
  rw [Nat.add_assoc]
  exact h.header_inside (by simp only [sizeField]; omega)

/-- The name of an entry, with the zero behind it. -/
theorem Placed.nameBytes (h : Placed r offset e) :
    ∀ i ≤ e.name.length, r.bytes (offset + i) = e.name.getD i 0 := by
  intro i hi
  have hlength := e.name_length
  rw [h.bytes.headerByte (by omega), Entry.headerByte, if_pos (by omega)]

theorem Placed.entrySize (h : Placed r offset e) : entrySize r offset = e.data.length := h.bytes.size

/-- The walk over the image of an archive shows its entries one after the other. -/
theorem loopReturns_walkEntries (screen : List Op) {visit : ℕ → ℕ → Option (List Op × Option β)}
    {shown : Entry → List Op × Option β} (hrest : IsEnd rest)
    (hvisit : ∀ e start, Placed r start e → visit start e.data.length = some (shown e))
    (hsize : r.size = offset + (encode es ++ rest).length)
    (hat : At r.bytes offset (encode es ++ rest)) :
    LoopReturns (tarRound r visit) ⟨offset, screen⟩
      (some (screen ++ (walkEntries shown es).1, (walkEntries shown es).2)) := by
  have hcase := tarRound_cases r visit ⟨offset, screen⟩
  generalize hround : tarRound r visit ⟨offset, screen⟩ = step at hcase
  induction es generalizing offset screen step with
  | nil =>
      have hstop := hrest.stops hat.right
      simp only [encode, List.flatMap_nil, List.nil_append, List.length_nil, Nat.add_zero] at hsize hstop
      have hend : ¬ Header r offset := by
        rintro ⟨hlt, hne⟩
        exact hstop.elim (fun hlen => by omega) hne
      cases hcase with
      | ended => exact .leave (by rw [hround, walkEntries, List.append_nil])
      | outside h => exact absurd h hend
      | found h => exact absurd h hend
      | on h => exact absurd h hend
  | cons e es ih =>
      have hencode : encode (e :: es) ++ rest = e.encode ++ (encode es ++ rest) := by
        rw [encode, List.flatMap_cons, List.append_assoc, encode]
      rw [hencode] at hsize hat
      rw [List.length_append] at hsize
      have hplaced : Placed r offset e := ⟨hat.left, by omega⟩
      have hshown := hvisit e offset hplaced
      rw [← hplaced.entrySize] at hshown
      cases hcase with
      | ended h => exact absurd hplaced.header h
      | outside _ hno =>
          refine absurd ⟨(octalToIntIn_eq_some_iff.mp hplaced.size).1, ?_⟩ hno
          rw [hshown]
          rfl
      | found _ _ ops x hfound =>
          have hops : shown e = (ops, some x) := Option.some_inj.mp (hshown.symm.trans hfound)
          refine .leave ?_
          rw [hround, walkEntries, hops]
      | on _ _ ops hon =>
          have hops : shown e = (ops, none) := Option.some_inj.mp (hshown.symm.trans hon)
          have hnext : nextHeader r offset = offset + e.encode.length := by
            rw [nextHeader, hplaced.entrySize, e.length_encode, Entry.blocks]
          refine .next hround ?_
          rw [walkEntries, hops, ← List.append_assoc, hnext]
          exact ih _ (by omega) hat.right _ rfl (tarRound_cases _ _ _)

/-! ## The listing -/

theorem printedIn_eq {name : List UInt8} (hchars : 0 ∉ name)
    (hname : ∀ i ≤ name.length, r.bytes (offset + i) = name.getD i 0)
    (hinside : offset + name.length < r.size) (hn : name.length < n) :
    printedIn r n offset = some name := by
  induction name generalizing offset n with
  | nil =>
      obtain ⟨n, rfl⟩ := Nat.exists_eq_add_one.mpr hn
      have hzero : r.bytes offset = 0 := hname 0 (Nat.zero_le _)
      rw [printedIn, Ramdisk.read_of_lt (show offset < r.size from hinside), hzero]
      rfl
  | cons c cs ih =>
      rw [List.length_cons] at hinside hn
      obtain ⟨n, rfl⟩ : ∃ m, n = m + 1 := Nat.exists_eq_add_one.mpr (by omega)
      have hc : r.bytes offset = c := hname 0 (Nat.zero_le _)
      have hne : c ≠ 0 := fun h => hchars (by rw [h]; exact List.mem_cons_self)
      have htail : printedIn r n (offset + 1) = some cs := ih (fun h => hchars (List.mem_cons_of_mem c h)) ?_
        (by omega) (by omega)
      · rw [printedIn, Ramdisk.read_of_lt (by omega), hc]
        simp only [Option.bind_eq_bind, Option.bind_some, if_neg hne, htail]
      · intro i hi
        have hnext := hname (i + 1) (by rw [List.length_cons]; omega)
        rw [Nat.add_assoc, Nat.add_comm 1 i, hnext]
        rfl

/-- The line of an entry: directories have none. -/
def listed (e : Entry) : List Op :=
  if e.fields typeField ≠ 0x35 then [.print e.name, .print (kernelText "    <ARQUIVO>\n")] else []

theorem Placed.visitDir (h : Placed r offset e) (size : ℕ) :
    visitDir r offset size = some (listed e, none) := by
  have htype : r.bytes (offset + typeField) = e.fields typeField := by
    rw [h.bytes.headerByte (by decide), Entry.headerByte, if_neg (by decide), if_neg (by decide)]
  have hlength := e.name_length
  have hinside := h.inside
  rw [e.length_encode] at hinside
  have hprinted : printedIn r (r.size - offset) offset = some e.name :=
    printedIn_eq e.name_chars h.nameBytes (h.header_inside (by omega)) (by omega)
  rw [Tarfs.visitDir, Ramdisk.read_of_lt (h.header_inside (by decide)), htype, hprinted, listed]
  simp only [Option.bind_eq_bind, Option.bind_some]
  split_ifs <;> rfl

theorem walkEntries_listed (es : List Entry) :
    walkEntries (fun e => (listed e, (none : Option Unit))) es = (es.flatMap listed, none) := by
  induction es with
  | nil => rfl
  | cons e es ih => rw [walkEntries, ih, List.flatMap_cons]

/-- What `tarfs_dir` prints of an archive. -/
def listing (es : List Entry) : List Op :=
  .print (kernelText "\n Pasta de C:\\\n\n") ::
    (es.flatMap listed ++
      if ∃ e ∈ es, e.fields typeField ≠ 0x35 then [.print (kernelText "\n")]
      else [.print (kernelText "Arquivo nao encontrado\n")])

theorem listed_eq_nil_iff : listed e = [] ↔ e.fields typeField = 0x35 := by
  rw [listed]
  split_ifs with h
  · exact iff_of_false (by simp) h
  · exact iff_of_true rfl (not_not.mp h)

theorem length_flatMap_listed (es : List Entry) :
    (es.flatMap listed).length = 0 ↔ ¬ ∃ e ∈ es, e.fields typeField ≠ 0x35 := by
  rw [List.length_eq_zero_iff, List.flatMap_eq_nil_iff]
  simp only [listed_eq_nil_iff, ne_eq, not_exists, not_and, not_not]

theorem listing_eq (es : List Entry) : listing es =
    .print (kernelText "\n Pasta de C:\\\n\n") :: (es.flatMap listed ++
      if (es.flatMap listed).length = 0 then [.print (kernelText "Arquivo nao encontrado\n")]
      else [.print (kernelText "\n")]) := by
  simp only [listing, length_flatMap_listed, ite_not]

/-! ## The data of a file -/

/-- What `tarfs_type` shows of an entry. -/
def typed (filename : List UInt8) (e : Entry) : List Op × Option Unit :=
  if e.name = filename then
    ((e.data.filter (· ≠ 0x0D)).map .putchar ++ [.print (kernelText "\n")], some ())
  else ([], none)

theorem Placed.sameNameIn (h : Placed r offset e) (hfilename : 0 ∉ filename) :
    sameNameIn r offset filename = some (decide (e.name = filename)) := by
  have hlength := e.name_length
  have hends : EndsInside r offset := by
    refine ⟨offset + e.name.length, Nat.le_add_right _ _, h.header_inside (by omega), ?_⟩
    rw [h.nameBytes _ le_rfl, List.getD_eq_default _ _ le_rfl]
  refine sameNameIn_eq_some_iff.mpr ⟨hends.compared hfilename, ?_⟩
  rw [Bool.eq_iff_iff, h.bytes.sameName_iff hfilename, decide_eq_true_iff]

theorem Placed.dataIn (h : Placed r offset e) :
    dataIn r (offset + 512) e.data.length = some e.data := by
  have hinside := h.inside
  have hroom := e.data_length_le
  rw [e.length_encode] at hinside
  refine dataIn_eq_some_iff.mpr ⟨.inr (by omega), ?_⟩
  refine List.ext_getElem (by simp) fun i hi _ => ?_
  rw [List.length_map, List.length_range] at hi
  rw [List.getElem_map, List.getElem_range, h.bytes.data i hi, List.getD_eq_getElem _ _ hi]

theorem Placed.visitType (h : Placed r offset e) (hfilename : 0 ∉ filename) :
    visitType r filename offset e.data.length = some (typed filename e) := by
  rw [Tarfs.visitType, h.sameNameIn hfilename, h.dataIn, typed]
  simp only [Option.bind_eq_bind, Option.bind_some, decide_eq_true_iff]
  split_ifs <;> rfl

theorem walkEntries_typed (filename : List UInt8) (es : List Entry) :
    walkEntries (typed filename) es =
      match es.find? fun e => e.name = filename with
      | some e => ((e.data.filter (· ≠ 0x0D)).map .putchar ++ [.print (kernelText "\n")], some ())
      | none => ([], none) := by
  induction es with
  | nil => rfl
  | cons e es ih =>
      rw [walkEntries, typed]
      by_cases hname : e.name = filename
      · rw [if_pos hname, List.find?_cons_of_pos (by simpa using hname)]
      · rw [if_neg hname, List.find?_cons_of_neg (by simpa using hname), ih]
        rfl

/-- What `tarfs_type` prints of an archive. -/
def typing (es : List Entry) (filename : List UInt8) : List Op :=
  match es.find? fun e => e.name = skipSpaces filename with
  | some e => (e.data.filter (· ≠ 0x0D)).map .putchar ++ [.print (kernelText "\n")]
  | none => [.print (kernelText "O sistema nao pode encontrar o arquivo especificado.\n")]

theorem Holds.walkReturns_iff {visit : ℕ → ℕ → Option (List Op × Option β)}
    {shown : Entry → List Op × Option β} (h : Holds r es rest)
    (hvisit : ∀ e start, Placed r start e → visit start e.data.length = some (shown e))
    {result : Option β} : WalkReturns r visit screen result ↔
      (screen, result) = walkEntries shown es := by
  have hwalk := loopReturns_walkEntries [] h.isEnd hvisit
    (by rw [Nat.zero_add, h.size]) h.bytes
  constructor
  · intro hreturns
    exact Option.some_inj.mp (hreturns.unique hwalk)
  · intro heq
    rw [WalkReturns, heq]
    exact hwalk

theorem Holds.tarfsDir_iff (h : Holds r es rest) (printed : List Op) :
    TarfsDir r printed ↔ printed = listing es := by
  have hvisit : ∀ e start, Placed r start e →
      visitDir r start e.data.length = some (listed e, none) := fun e start hplaced =>
    hplaced.visitDir _
  simp only [TarfsDir, h.walkReturns_iff hvisit, walkEntries_listed, Prod.mk.injEq]
  rw [listing_eq]
  constructor
  · rintro ⟨screen, left, ⟨rfl, rfl⟩, rfl⟩
    rfl
  · rintro rfl
    exact ⟨_, none, ⟨rfl, rfl⟩, rfl⟩

theorem Holds.tarfsType_iff (h : Holds r es rest) (hfilename : 0 ∉ filename) (printed : List Op) :
    TarfsType r filename printed ↔ printed = typing es filename := by
  have hskipped : 0 ∉ skipSpaces filename := fun hzero =>
    hfilename ((List.dropWhile_sublist _).subset hzero)
  have hvisit : ∀ e start, Placed r start e →
      visitType r (skipSpaces filename) start e.data.length = some (typed (skipSpaces filename) e) :=
    fun e start hplaced => hplaced.visitType hskipped
  simp only [TarfsType, h.walkReturns_iff hvisit, walkEntries_typed, typing]
  cases es.find? fun e => e.name = skipSpaces filename with
  | some e =>
      constructor
      · rintro ⟨screen, found, heq, rfl⟩
        cases heq
        rfl
      · rintro rfl
        exact ⟨_, some (), rfl, rfl⟩
  | none =>
      constructor
      · rintro ⟨screen, found, heq, rfl⟩
        cases heq
        rfl
      · rintro rfl
        exact ⟨_, none, rfl, rfl⟩

/-- On the image of an archive, `tarfs_dir` lists the names of the files in the order of the
archive, and `tarfs_type` shows the data of the first entry of the name, without its carriage
returns. They print nothing else, and stay in the ramdisk. -/
theorem tarfs_shows_archive (h : Holds r es rest) :
    (∀ printed, TarfsDir r printed ↔ printed = listing es) ∧
      ∀ filename, 0 ∉ filename →
        ∀ printed, TarfsType r filename printed ↔ printed = typing es filename :=
  ⟨h.tarfsDir_iff, fun _ hfilename => h.tarfsType_iff hfilename⟩

theorem sampleRamdisk_holds : Holds sampleRamdisk sampleEntries [] := by
  refine ⟨.inl rfl, by simp only [sampleRamdisk, List.append_nil], ?_⟩
  intro i _
  simp only [sampleRamdisk, List.append_nil, Nat.zero_add]

theorem tarfs_shows_archive_sample :
    TarfsDir sampleRamdisk (listing sampleEntries) ∧
      TarfsType sampleRamdisk [0x20, 0x61] [.putchar 7, .print (kernelText "\n")] := by
  obtain ⟨hdir, htype⟩ := tarfs_shows_archive sampleRamdisk_holds
  exact ⟨(hdir _).mpr rfl, (htype [0x20, 0x61] (by decide) _).mpr rfl⟩

end LispDos.Tarfs
