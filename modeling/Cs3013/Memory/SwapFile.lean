import Cs3013.Library.CText
import Cs3013.Memory.Machine

/-!
# The swap file

`pageToFile` appends one line of text for sixteen bytes of memory; `pageFromFile` searches
the text for a line by the number it starts with. Every line is `linenum b0 ... b15 \n`, and
the blank printed after the newline is carried to the next line.
-/
namespace Cs3013.Memory

open Cs3013.Library.Faulting Cs3013.Library.CText

/-- What the calls of `fprintf` in `pageToFile` write: `"%d "`, sixteen times `"%u "`, and
`"%c "` of the newline. -/
def lineText (linenum : Nat) (bytes : List UInt8) : List Char :=
  decimal linenum ++ ' ' :: (bytes.flatMap fun b => decimal b.toNat ++ [' ']) ++ ['\n', ' ']

/-- `linecount++` as an argument. -/
def nextLine : M Nat := fun s =>
  if s.linecount + 1 < 2 ^ 31 then .ok s.linecount { s with linecount := s.linecount + 1 }
  else .error .overflow s

/-- `pageToFile(mem, linenum, base)`. -/
def pageToFile (linenum : Nat) (base : Int) : M Nat := do
  let bytes ← (List.range 16).mapM fun (i : Nat) => peek (base + i)
  modify fun s => { s with
    swapspace := s.swapspace ++ lineText linenum bytes
    written := s.written ++ [bytes] }
  return linenum

/-- `pageToFile(mem, linecount++, base)`. -/
def appendPage (base : Int) : M Nat := do
  let line ← nextLine
  pageToFile line base

/-- The search loop of `pageFromFile` on what is left of the file: the tokens behind the first
line whose number is `linenum`. At the end of the file `fgets` leaves the buffer as it is, so the
C loop would go on for ever; a line without a token makes `atoi` read a null pointer. -/
def findLine (linenum : Int) : Nat → List Char → Except Fault (List (List Char))
  | 0, _ => .error .loop
  | fuel + 1, text =>
    match fgets 128 text with
    | none => .error .endOfFile
    | some (line, rest) =>
      match strtok ' ' line with
      | [] => .error .token
      | number :: data => if atoi number = linenum then .ok data else findLine linenum fuel rest

/-- `buffer[i++] = (unsigned char) atoi(token)` for each token. A write past `buffer[15]` has no
other effect. -/
def fillBuffer (buffer : Page) : Nat → List (List Char) → Page
  | _, [] => buffer
  | i, token :: tokens =>
    fillBuffer (buffer.setIfInBounds i (UInt8.ofInt (atoi token))) (i + 1) tokens

/-- The value returned and the buffer afterwards. Each `fgets` takes at least one character, so
the length of the file bounds the search. -/
def pageFromFile (buffer : Page) (linenum : Int) : M (Int × Page) := do
  let s ← get
  if linenum > s.linecount then
    say (.lineNotFound linenum)
    return (-1, buffer)
  else
    match findLine linenum (s.swapspace.length + 1) s.swapspace with
    | .error e => throw e
    | .ok data => return (1, fillBuffer buffer 0 data)

def swaptomem (temp : Page) (base : Int) : M Unit :=
  forM (List.range 16) fun (i : Nat) => poke (base + i) (temp.byte i)

/-! ## What a line contains -/

/-- Line `n` as `pageFromFile` reads it. -/
def Machine.line (s : Machine) (n : Nat) : Page :=
  match findLine n (s.swapspace.length + 1) s.swapspace with
  | .ok data => fillBuffer zeroPage 0 data
  | .error _ => zeroPage

/-- The text of the given pages on lines `k`, `k + 1` and so on. -/
def swapText : Nat → List Page → List Char
  | _, [] => []
  | k, page :: records => lineText k page.toList ++ swapText (k + 1) records

/-- The file is the text of `linecount` pages. -/
structure FileHolds (s : Machine) (records : List Page) : Prop where
  text : s.swapspace = swapText 0 records
  count : records.length = s.linecount
  bound : s.linecount < 2 ^ 31

theorem swapText_append (k : Nat) (records : List Page) (page : Page) :
    swapText k (records ++ [page]) =
      swapText k records ++ lineText (k + records.length) page.toList := by
  induction records generalizing k with
  | nil => simp [swapText]
  | cons r records ih =>
    have hk : k + 1 + records.length = k + (records.length + 1) := by omega
    simp only [List.cons_append, swapText, ih, List.append_assoc, List.length_cons, hk]

section Holds

variable {s t : Machine} {records : List Page}

theorem FileHolds.congr (h : FileHolds s records) (htext : t.swapspace = s.swapspace)
    (hcount : t.linecount = s.linecount) : FileHolds t records :=
  ⟨htext.trans h.text, h.count.trans hcount.symm, hcount ▸ h.bound⟩

/-- One more line for one more page. -/
theorem FileHolds.append (h : FileHolds s records) (page : Page)
    (hbound : s.linecount + 1 < 2 ^ 31) (hcount : t.linecount = s.linecount + 1)
    (htext : t.swapspace = s.swapspace ++ lineText s.linecount page.toList) :
    FileHolds t (records ++ [page]) where
  text := by
    rw [htext, swapText_append, Nat.zero_add, h.count, ← h.text]
  count := by rw [List.length_append, List.length_singleton, h.count, hcount]
  bound := hcount ▸ hbound

end Holds

/-- The words of a line without the newline token. -/
def lineWords (linenum : Nat) (bytes : List UInt8) : List (List Char) :=
  decimal linenum :: bytes.map fun b => decimal b.toNat

theorem lineText_eq (linenum : Nat) (bytes : List UInt8) :
    lineText linenum bytes =
      (lineWords linenum bytes).flatMap (fun w => w ++ [' ']) ++ ['\n', ' '] := by
  simp [lineText, lineWords, List.flatMap_map]

theorem lineWords_good (linenum : Nat) (bytes : List UInt8) :
    ∀ w ∈ lineWords linenum bytes, w ≠ [] ∧ ' ' ∉ w ∧ '\n' ∉ w := by
  have hgood : ∀ n, decimal n ≠ [] ∧ ' ' ∉ decimal n ∧ '\n' ∉ decimal n := fun n =>
    ⟨decimal_ne_nil n, not_mem_decimal (by decide) n, not_mem_decimal (by decide) n⟩
  intro w hw
  rcases List.mem_cons.mp hw with rfl | hw
  · exact hgood linenum
  · obtain ⟨b, -, rfl⟩ := List.mem_map.mp hw
    exact hgood b.toNat

private theorem length_bytes_le (bytes : List UInt8) :
    ((bytes.map fun b => decimal b.toNat).flatMap fun w => w ++ [' ']).length
      ≤ 4 * bytes.length := by
  induction bytes with
  | nil => simp
  | cons b bytes ih =>
    have hb : (decimal b.toNat).length ≤ 3 :=
      length_decimal_le (by decide) (lt_trans b.toNat_lt (by decide))
    simp only [List.map_cons, List.flatMap_cons, List.length_append, List.length_cons,
      List.length_nil] at ih ⊢
    omega

/-- A line of a file below the overflow of linecount fits the buffer of `pageFromFile`. -/
theorem length_lineWords_le {linenum : Nat} (hn : linenum < 2 ^ 31) (page : Page) :
    ((lineWords linenum page.toList).flatMap fun w => w ++ [' ']).length ≤ 75 := by
  have hd : (decimal linenum).length ≤ 10 :=
    length_decimal_le (by decide) (lt_trans hn (by decide))
  have hb := length_bytes_le page.toList
  simp only [lineWords, List.flatMap_cons, List.length_append, List.length_cons, List.length_nil,
    Vector.length_toList] at hb ⊢
  omega

/-- Reading one line, with the blank that the line before has left in front. -/
theorem strtok_lineText {blanks : List Char} (hblanks : blanks = [] ∨ blanks = [' '])
    (linenum : Nat) (bytes : List UInt8) :
    strtok ' ' (blanks ++ ((lineWords linenum bytes).flatMap fun w => w ++ [' ']) ++ ['\n']) =
      lineWords linenum bytes ++ [['\n']] := by
  have hwords := strtok_words (d := ' ') (lineWords linenum bytes)
    (fun w hw => ⟨(lineWords_good linenum bytes w hw).1, (lineWords_good linenum bytes w hw).2.1⟩)
    ['\n']
  have hlast : strtok ' ' ['\n'] = [['\n']] := strtok_last (by simp) (by simp)
  rw [hlast] at hwords
  rcases hblanks with rfl | rfl
  · simpa using hwords
  · simpa [strtok_delim] using hwords

theorem fgets_lineText {blanks : List Char} (hblanks : blanks = [] ∨ blanks = [' '])
    {linenum : Nat} (hn : linenum < 2 ^ 31) (page : Page) (rest : List Char) :
    fgets 128 (blanks ++ lineText linenum page.toList ++ rest) =
      some (blanks ++ ((lineWords linenum page.toList).flatMap fun w => w ++ [' ']) ++ ['\n'],
        ' ' :: rest) := by
  have hlen := length_lineWords_le hn page
  have hno : '\n' ∉ blanks ++ (lineWords linenum page.toList).flatMap fun w => w ++ [' '] := by
    intro h
    rcases List.mem_append.mp h with h | h
    · rcases hblanks with rfl | rfl <;> simp at h
    · obtain ⟨w, hw, hmem⟩ := List.mem_flatMap.mp h
      have := (lineWords_good linenum page.toList w hw).2.2
      simp [this] at hmem
  have hsize : (blanks ++ (lineWords linenum page.toList).flatMap fun w => w ++ [' ']).length + 1
      < 128 := by
    rw [List.length_append]
    rcases hblanks with rfl | rfl <;> simp only [List.length_nil, List.length_cons] <;> omega
  have h := fgets_of_newline hno (' ' :: rest) hsize
  rw [lineText_eq]
  simpa using h

/-- One round of the search: the line in front is the one looked for, or the next one is read. -/
theorem findLine_lineText {linenum : Int} {blanks : List Char}
    (hblanks : blanks = [] ∨ blanks = [' ']) {n : Nat} (hn : n < 2 ^ 31) (page : Page)
    (rest : List Char) (fuel : Nat) :
    findLine linenum (fuel + 1) (blanks ++ (lineText n page.toList ++ rest)) =
      if (n : Int) = linenum then .ok (page.toList.map (fun b => decimal b.toNat) ++ [['\n']])
      else findLine linenum fuel ([' '] ++ rest) := by
  rw [← List.append_assoc, findLine, fgets_lineText hblanks hn page rest]
  simp only [strtok_lineText hblanks]
  simp only [lineWords, List.cons_append, List.nil_append, atoi_decimal]

/-- The search finds line `k + j` of a well-formed text and stops there. -/
theorem findLine_swapText : ∀ (records : List Page) (k j fuel : Nat) (blanks : List Char),
    (blanks = [] ∨ blanks = [' ']) → k + records.length ≤ 2 ^ 31 → j < fuel →
    ∀ hj : j < records.length, findLine ((k + j : Nat) : Int) fuel (blanks ++ swapText k records) =
      .ok (records[j].toList.map (fun b => decimal b.toNat) ++ [['\n']]) := by
  intro records
  induction records with
  | nil => intro k j fuel blanks _ _ _ hj; simp at hj
  | cons page records ih =>
    intro k j fuel blanks hblanks hk hfuel hj
    rw [List.length_cons] at hk hj
    obtain ⟨fuel, rfl⟩ : ∃ n, fuel = n + 1 := ⟨fuel - 1, by omega⟩
    have hlt : k < 2 ^ 31 := by omega
    rw [swapText, findLine_lineText hblanks hlt]
    cases j with
    | zero => exact if_pos rfl
    | succ j =>
      have hne : ¬ ((k : Nat) : Int) = ((k + (j + 1) : Nat) : Int) := by omega
      have hrest := ih (k + 1) j fuel [' '] (.inr rfl) (by omega) (by omega) (by omega)
      have hkj : k + 1 + j = k + (j + 1) := by omega
      rw [hkj] at hrest
      rw [if_neg hne, hrest, List.getElem_cons_succ]

theorem byte_fillBuffer (tokens : List (List Char)) :
    ∀ (buffer : Page) (i o : Nat), o < 16 → (fillBuffer buffer i tokens).byte o =
      if i ≤ o ∧ o < i + tokens.length then UInt8.ofInt (atoi (tokens.getD (o - i) []))
      else buffer.byte o := by
  induction tokens with
  | nil =>
    intro buffer i o _
    simp [fillBuffer]
  | cons token tokens ih =>
    intro buffer i o ho
    rw [fillBuffer, ih _ _ _ ho, List.length_cons]
    by_cases hio : i = o
    · subst hio
      simp [Page.byte_eq _ ho]
    · by_cases h : i ≤ o ∧ o < i + (tokens.length + 1)
      · have h' : i + 1 ≤ o ∧ o < i + 1 + tokens.length := by omega
        have hidx : o - i = (o - (i + 1)) + 1 := by omega
        rw [if_pos h, if_pos h', hidx, List.getD_cons_succ]
      · have h' : ¬ (i + 1 ≤ o ∧ o < i + 1 + tokens.length) := by omega
        rw [if_neg h, if_neg h', Page.byte_eq _ ho, Page.byte_eq _ ho,
          Vector.getElem_setIfInBounds_ne ho hio]

/-- The tokens of a line overwrite the whole buffer with the bytes of the line. -/
theorem fillBuffer_page (buffer page : Page) :
    fillBuffer buffer 0 (page.toList.map (fun b => decimal b.toNat) ++ [['\n']]) = page := by
  apply Page.ext_byte
  intro o ho
  have hlen : o < (page.toList.map fun b => decimal b.toNat).length := by simpa using ho
  have h : 0 ≤ o ∧ o < 0 + (page.toList.map (fun b => decimal b.toNat) ++ [['\n']]).length := by
    simp only [List.length_append]
    omega
  have htoken : (page.toList.map (fun b => decimal b.toNat) ++ [['\n']]).getD o [] =
      decimal (page.byte o).toNat := by
    rw [List.getD_eq_getElem?_getD, List.getElem?_append_left hlen, Page.byte_eq _ ho]
    simp [ho]
  rw [byte_fillBuffer _ _ _ _ ho, if_pos h, Nat.sub_zero, htoken, atoi_decimal, ofInt_natCast,
    UInt8.ofNat_toNat]

/-! ## Reading and appending lines -/

def FileOk (s : Machine) : Prop := ∃ records, FileHolds s records

private theorem length_swapText_ge (records : List Page) :
    ∀ k, records.length ≤ (swapText k records).length := by
  induction records with
  | nil => intro k; simp
  | cons page records ih =>
    intro k
    have h := ih (k + 1)
    simp only [swapText, lineText, List.length_cons, List.length_append] at h ⊢
    omega

theorem FileHolds.findLine {s : Machine} {records : List Page} (h : FileHolds s records) {n : Nat}
    (hn : n < records.length) : Memory.findLine n (s.swapspace.length + 1) s.swapspace =
      .ok (records[n].toList.map (fun b => decimal b.toNat) ++ [['\n']]) := by
  have hlen := length_swapText_ge records 0
  have hbound := h.bound
  have hcount := h.count
  rw [h.text]
  simpa using findLine_swapText records 0 n ((swapText 0 records).length + 1) [] (.inl rfl)
    (by omega) (by omega) hn

theorem FileHolds.line_eq {s : Machine} {records : List Page} (h : FileHolds s records) {n : Nat}
    (hn : n < records.length) : s.line n = records[n] := by
  rw [Machine.line, h.findLine hn]
  exact fillBuffer_page zeroPage records[n]

/-- A line below linecount is read whole, whatever the buffer held. -/
theorem pageFromFile_ok {s : Machine} (h : FileOk s) (buffer : Page) {n : Nat}
    (hn : n < s.linecount) : (pageFromFile buffer (n : Int)).run s = .ok (1, s.line n) s := by
  obtain ⟨records, hrec⟩ := h
  have hlen : n < records.length := by rw [hrec.count]; exact hn
  have hle : ¬ ((n : Int) > s.linecount) := by omega
  rw [pageFromFile, bind_of_ok get_run, if_neg hle, hrec.findLine hlen, hrec.line_eq hlen]
  simp only [fillBuffer_page]
  rfl

/-- A search for a number that is on no line runs past the end of the file. -/
theorem findLine_absent (n : Int) : ∀ (records : List Page) (k fuel : Nat) (blanks : List Char),
    (blanks = [] ∨ blanks = [' ']) → k + records.length ≤ 2 ^ 31 →
    (∀ j < records.length, ((k + j : Nat) : Int) ≠ n) →
    ∃ e, findLine n fuel (blanks ++ swapText k records) = .error e := by
  intro records
  induction records with
  | nil =>
    intro k fuel blanks hblanks _ _
    cases fuel with
    | zero => exact ⟨_, rfl⟩
    | succ fuel =>
      rcases hblanks with rfl | rfl
      · exact ⟨.endOfFile, rfl⟩
      · have hblank : strtok ' ' [' '] = [] := by
          rw [strtok_delim]
          rfl
        have hread : fgets 128 ([' '] ++ swapText k []) = some ([' '], []) := rfl
        refine ⟨.token, ?_⟩
        rw [findLine, hread]
        dsimp only
        rw [hblank]
  | cons page records ih =>
    intro k fuel blanks hblanks hk hne
    rw [List.length_cons] at hk hne
    cases fuel with
    | zero => exact ⟨_, rfl⟩
    | succ fuel =>
      have hlt : k < 2 ^ 31 := by omega
      have hk0 : ¬ ((k : Nat) : Int) = n := hne 0 (by omega)
      rw [swapText, findLine_lineText hblanks hlt, if_neg hk0]
      refine ih (k + 1) fuel [' '] (.inr rfl) (by omega) fun j hj => ?_
      have hkj : k + 1 + j = k + (j + 1) := by omega
      rw [hkj]
      exact hne (j + 1) (by omega)

/-- The test `linenum > linecount` lets the first unused line pass. -/
theorem pageFromFile_fault {s : Machine} (h : FileOk s) (buffer : Page) :
    ∃ e, (pageFromFile buffer (s.linecount : Int)).run s = .error e s := by
  obtain ⟨records, hrec⟩ := h
  have hle : ¬ ((s.linecount : Int) > s.linecount) := lt_irrefl _
  have hbound := hrec.bound
  have hcount := hrec.count
  obtain ⟨e, he⟩ := findLine_absent (s.linecount : Int) records 0 (s.swapspace.length + 1) []
    (.inl rfl) (by omega) (fun j hj => by omega)
  rw [List.nil_append, ← hrec.text] at he
  refine ⟨e, ?_⟩
  rw [pageFromFile, bind_of_ok get_run, if_neg hle, he]
  rfl

theorem pageFromFile_beyond {s : Machine} (buffer : Page) {n : Nat} (hn : s.linecount < n) :
    (pageFromFile buffer (n : Int)).run s = .ok (-1, buffer) (s.printed (.lineNotFound n)) := by
  have hgt : (n : Int) > s.linecount := by omega
  rw [pageFromFile, bind_of_ok get_run, if_pos hgt]
  rfl

namespace Machine

variable (s : Machine)

/-- The sixteen bytes from `base` on. -/
def pageAt (base : Nat) : Page := Vector.ofFn fun o : Fin 16 => s.byte (base + o.val)

/-- The machine after frame `i` has been appended to the swap file. -/
def appendFrame (i : Fin 4) : Machine :=
  { s with
    linecount := s.linecount + 1
    swapspace := s.swapspace ++ lineText s.linecount (s.page i).toList
    written := s.written ++ [(s.page i).toList] }

@[simp] theorem appendFrame_toFrames (i : Fin 4) : (s.appendFrame i).toFrames = s.toFrames := rfl
@[simp] theorem appendFrame_byte (i : Fin 4) (a : Nat) : (s.appendFrame i).byte a = s.byte a := rfl
@[simp] theorem appendFrame_page (i j : Fin 4) : (s.appendFrame i).page j = s.page j := rfl
@[simp] theorem appendFrame_linecount (i : Fin 4) :
    (s.appendFrame i).linecount = s.linecount + 1 := rfl
@[simp] theorem appendFrame_out (i : Fin 4) : (s.appendFrame i).out = s.out := rfl
@[simp] theorem appendFrame_calls (i : Fin 4) : (s.appendFrame i).calls = s.calls := rfl

end Machine

/-- A call of `pageToFile` inside the memory appends the line of its sixteen bytes. -/
theorem pageToFile_ok (s : Machine) (linenum : Nat) {base : Nat} (hbase : base + 16 ≤ 64) :
    (pageToFile linenum base).run s = .ok linenum { s with
      swapspace := s.swapspace ++ lineText linenum (s.pageAt base).toList
      written := s.written ++ [(s.pageAt base).toList] } := by
  have hbyte : ∀ o ∈ List.range 16, (peek ((base : Int) + (o : Nat))).run s =
      .ok (s.byte (base + o)) s := by
    intro o ho
    have hlt := List.mem_range.mp ho
    exact peek_eq (Int.natCast_add base o).symm (by omega)
  have hlist : (List.range 16).map (fun o => s.byte (base + o)) = (s.pageAt base).toList := by
    apply List.ext_getElem
    · simp
    · intro o _ _
      simp [Machine.pageAt]
  rw [pageToFile, bind_of_ok (mapM_eq_map _ _ hbyte), hlist, bind_of_ok (modify_run _)]
  rfl

theorem line_congr {s t : Machine} (h : t.swapspace = s.swapspace) (n : Nat) :
    t.line n = s.line n := by
  simp only [Machine.line, h]

theorem FileOk.congr {s t : Machine} (h : FileOk s) (htext : t.swapspace = s.swapspace)
    (hcount : t.linecount = s.linecount) : FileOk t := by
  obtain ⟨records, hrec⟩ := h
  exact ⟨records, hrec.congr htext hcount⟩

/-- The file that `t` shares with `s`. -/
theorem pageFromFile_congr {s t : Machine} (h : FileOk s) (htext : t.swapspace = s.swapspace)
    (hcount : t.linecount = s.linecount) (buffer : Page) {n : Nat} (hn : n < s.linecount) :
    (pageFromFile buffer (n : Int)).run t = .ok (1, s.line n) t := by
  rw [pageFromFile_ok (h.congr htext hcount) buffer (hcount ▸ hn), line_congr htext]

/-- `t` has the lines of `s` and perhaps more. -/
structure FileGrows (s t : Machine) : Prop where
  ok : FileOk t
  count : s.linecount ≤ t.linecount
  lines : ∀ n < s.linecount, t.line n = s.line n

theorem FileOk.grows {s t : Machine} (h : FileOk s) (htext : t.swapspace = s.swapspace)
    (hcount : t.linecount = s.linecount) : FileGrows s t :=
  ⟨h.congr htext hcount, hcount.ge, fun n _ => line_congr htext n⟩

theorem FileGrows.trans {s t u : Machine} (h : FileGrows s t) (h' : FileGrows t u) :
    FileGrows s u :=
  ⟨h'.ok, h.count.trans h'.count, fun n hn =>
    (h'.lines n (lt_of_lt_of_le hn h.count)).trans (h.lines n hn)⟩

section Append

variable {s : Machine} (h : FileOk s) (hbound : s.linecount + 1 < 2 ^ 31) (i : Fin 4)

theorem appendFrame_holds {records : List Page} (hrec : FileHolds s records)
    (hbound : s.linecount + 1 < 2 ^ 31) (i : Fin 4) :
    FileHolds (s.appendFrame i) (records ++ [s.page i]) :=
  hrec.append (s.page i) hbound rfl rfl

include h hbound in
theorem appendFrame_grows : FileGrows s (s.appendFrame i) := by
  obtain ⟨records, hrec⟩ := h
  have hnew := appendFrame_holds hrec hbound i
  refine ⟨⟨_, hnew⟩, Nat.le_succ _, ?_⟩
  intro n hn
  have hlen : n < records.length := by rw [hrec.count]; exact hn
  rw [hnew.line_eq (by simp; omega), hrec.line_eq hlen, List.getElem_append_left hlen]

include h hbound in
theorem appendFrame_line : (s.appendFrame i).line s.linecount = s.page i := by
  obtain ⟨records, hrec⟩ := h
  have hnew := appendFrame_holds hrec hbound i
  have hlen : s.linecount < (records ++ [s.page i]).length := by
    rw [List.length_append, hrec.count]
    exact Nat.lt_succ_self _
  rw [hnew.line_eq hlen]
  simp [← hrec.count]

include hbound in
theorem appendPage_ok : (appendPage (16 * (i.val : Int))).run s =
    .ok s.linecount (s.appendFrame i) := by
  have hnext : nextLine.run s = .ok s.linecount { s with linecount := s.linecount + 1 } :=
    if_pos hbound
  have hbase : 16 * i.val + 16 ≤ 64 := by omega
  have hpage := pageToFile_ok { s with linecount := s.linecount + 1 } s.linecount hbase
  have hcast : ((16 * i.val : Nat) : Int) = 16 * (i.val : Int) := Int.natCast_mul 16 i.val
  rw [appendPage, bind_of_ok hnext, ← hcast]
  exact hpage

end Append

private theorem foldl_write (temp : Page) (base : Nat) (l : List Nat) (s : Machine) :
    l.foldl (fun t o => t.write (base + o) (temp.byte o)) s =
      { s with mem := l.foldl (fun m o => m.setIfInBounds (base + o) (temp.byte o)) s.mem } := by
  induction l generalizing s with
  | nil => rfl
  | cons o l ih =>
    rw [List.foldl_cons, ih]
    rfl

theorem swaptomem_ok {s : Machine} (temp : Page) (i : Fin 4) :
    (swaptomem temp (16 * (i.val : Int))).run s = .ok () (s.writePage i temp) := by
  have hpoke : ∀ o ∈ List.range 16, ∀ t : Machine,
      (poke (16 * (i.val : Int) + (o : Nat)) (temp.byte o)).run t =
        .ok () (t.write (16 * i.val + o) (temp.byte o)) := by
    intro o ho t
    have hlt : 16 * i.val + o < 64 := by
      have := List.mem_range.mp ho
      omega
    exact_mod_cast poke_of_lt hlt (temp.byte o)
  have hfold := foldl_write temp (16 * i.val) (List.range 16) s
  unfold swaptomem Machine.writePage copyPage
  rw [forM_eq_foldl _ hpoke, hfold]

/-- The length of the file is enough fuel for the search. -/
theorem findLine_ne_loop (linenum : Int) : ∀ (fuel : Nat) (text : List Char),
    text.length < fuel → findLine linenum fuel text ≠ .error .loop := by
  intro fuel
  induction fuel with
  | zero => intro text htext; exact absurd htext (Nat.not_lt_zero _)
  | succ fuel ih =>
    intro text htext
    rw [findLine]
    cases hline : fgets 128 text with
    | none => nofun
    | some found =>
      obtain ⟨line, rest⟩ := found
      have hrest := length_fgets_lt (by decide) hline
      dsimp only
      split
      · nofun
      · split_ifs
        · nofun
        · exact ih rest (by omega)

/-- Reading the file changes no control data, also when the line is missing. -/
theorem pageFromFile_preserves (buffer : Page) (linenum : Int) :
    Preserves Fault.Real Machine.control (pageFromFile buffer linenum) := by
  intro s
  rw [pageFromFile, wp_bind, wp_get, wp_ite]
  have hfuel := findLine_ne_loop linenum (s.swapspace.length + 1) s.swapspace (Nat.lt_succ_self _)
  split_ifs
  · rfl
  · split
    · rename_i e he
      exact ⟨fun hloop => hfuel (hloop ▸ he), rfl⟩
    · rfl

theorem appendPage_overflow {s : Machine} (hbound : ¬ s.linecount + 1 < 2 ^ 31) (i : Fin 4) :
    (appendPage (16 * (i.val : Int))).run s = .error .overflow s := by
  have hnext : nextLine.run s = .error .overflow s := if_neg hbound
  rw [appendPage, bind_run, hnext]

/-- Appending a frame either stops at the overflow of linecount or extends the file. -/
theorem appendPage_spec {s : Machine} (i : Fin 4) :
    wp (appendPage (16 * (i.val : Int)))
      (fun line t => s.linecount + 1 < 2 ^ 31 ∧ line = s.linecount ∧ t = s.appendFrame i)
      (fun e t => e = .overflow ∧ t = s) s := by
  by_cases hbound : s.linecount + 1 < 2 ^ 31
  · rw [wp_of_ok (appendPage_ok hbound i)]
    exact ⟨hbound, rfl, rfl⟩
  · unfold wp
    rw [appendPage_overflow hbound i]
    exact ⟨rfl, rfl⟩

theorem clearFrame_ok {s : Machine} (i : Fin 4) :
    (forM (List.range 16) fun (o : Nat) => poke (16 * (i.val : Int) + o) 0 : M Unit).run s =
      .ok () (s.writePage i zeroPage) := by
  have h := swaptomem_ok (s := s) zeroPage i
  simpa only [swaptomem, Page.byte_zero] using h

end Cs3013.Memory
