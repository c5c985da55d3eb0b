import Cs3013.Memory.Commands

/-!
# Reading a line of the swap file

`pageFromFile` on a file that calls of `pageToFile` have written: which line numbers it turns
away, and which cells of the buffer its token loop assigns.
-/
namespace Cs3013.Memory

open Cs3013.Library.Faulting Cs3013.Library.CText

/-- The pages that calls of `pageToFile` with the line numbers 0, 1 and so on have appended to an
empty file, and its text. Anything else may happen between the calls. -/
inductive Written : List Page → List Char → Prop
  | opened : Written [] []
  | appended {records : List Page} {s t : Machine} {base line : Nat}
      (hrest : Written records s.swapspace) (hbase : base + 16 ≤ 64)
      (hcall : (pageToFile records.length base).run s = .ok line t) :
      Written (records ++ [s.pageAt base]) t.swapspace

theorem Written.text {records : List Page} {text : List Char} (h : Written records text) :
    text = swapText 0 records := by
  induction h with
  | opened => rfl
  | @appended records s t base line _ hbase hcall ih =>
    rw [pageToFile_ok s records.length hbase] at hcall
    obtain ⟨-, rfl⟩ := EStateM.Result.ok.inj hcall
    rw [swapText_append, ← ih, Nat.zero_add]

/-- The line's data for the number of a line, and -1 and the buffer as it was for any other. -/
def RejectsOrFinds (s : Machine) (records : List Page) (buffer : Page) (linenum : Nat) : Prop :=
  (pageFromFile buffer linenum).run s =
    match records[linenum]? with
    | some page => .ok (1, page) s
    | none => .ok (-1, buffer) (s.printed (.lineNotFound linenum))

/-- The number of lines itself is the only one that passes the test and is on no line. -/
theorem pageFromFile_iff {s : Machine} {records : List Page} (hfile : Written records s.swapspace)
    (hcount : records.length = s.linecount) (hint : s.linecount < 2 ^ 31) (buffer : Page)
    (linenum : Nat) : RejectsOrFinds s records buffer linenum ↔ linenum ≠ s.linecount := by
  have hrec : FileHolds s records := ⟨hfile.text, hcount, hint⟩
  unfold RejectsOrFinds
  obtain hlt | rfl | hgt := lt_trichotomy linenum s.linecount
  · have hlen : linenum < records.length := by rwa [hcount]
    rw [pageFromFile_ok ⟨records, hrec⟩ buffer hlt, hrec.line_eq hlen,
      List.getElem?_eq_getElem hlen]
    exact ⟨fun _ => hlt.ne, fun _ => rfl⟩
  · obtain ⟨e, he⟩ := pageFromFile_fault ⟨records, hrec⟩ buffer
    rw [he, List.getElem?_eq_none hcount.le]
    exact ⟨nofun, fun hne => absurd rfl hne⟩
  · rw [pageFromFile_beyond buffer hgt, List.getElem?_eq_none (hcount.le.trans hgt.le)]
    exact ⟨fun _ => hgt.ne', fun _ => rfl⟩

/-- Calls of `pageToFile` can write lines of any bytes. -/
theorem written_swapText (records : List Page) : Written records (swapText 0 records) := by
  induction records using List.reverseRecOn with
  | nil => exact .opened
  | append_singleton records page ih =>
    let s : Machine := { startup [] with
      mem := Vector.ofFn fun i : Fin 64 => page.byte i.val
      swapspace := swapText 0 records }
    have hpage : s.pageAt 0 = page := by
      apply Page.ext_byte
      intro o ho
      have hlt : o < 64 := by omega
      rw [Machine.pageAt, Page.byte_ofFn _ ho]
      simp [s, Machine.byte, hlt]
    have hbase : 0 + 16 ≤ 64 := by decide
    have hall : Written (records ++ [s.pageAt 0]) _ :=
      .appended (s := s) ih hbase (pageToFile_ok s records.length hbase)
    rw [hpage] at hall
    rw [swapText_append, Nat.zero_add]
    exact hall

/-- A machine with these lines in its swap file. -/
def withLines (records : List Page) : Machine :=
  { startup [] with
    linecount := records.length
    swapspace := swapText 0 records
    written := records.map Vector.toList }

def oneLine : Machine := withLines [zeroPage]

/-- The bytes from a value on. -/
def bytesFrom (b : UInt8) : Page := Vector.ofFn fun o => b + UInt8.ofNat o.val

def threeRecords : List Page := [bytesFrom 0, bytesFrom 100, bytesFrom 240]

/-- Line 2 of three lines with different bytes is found, and line 7 is not there. -/
theorem pageFromFile_three : RejectsOrFinds (withLines threeRecords) threeRecords zeroPage 2 ∧
    threeRecords[2]? = some (bytesFrom 240) ∧
      RejectsOrFinds (withLines threeRecords) threeRecords zeroPage 7 := by
  have hiff := pageFromFile_iff (s := withLines threeRecords) (written_swapText threeRecords) rfl
    (by decide) zeroPage
  exact ⟨(hiff 2).mpr (by decide), rfl, (hiff 7).mpr (by decide)⟩

/-- Line 1 is looked for in the file whose only line is line 0. -/
theorem pageFromFile_passes_end : Written [zeroPage] oneLine.swapspace ∧ oneLine.linecount = 1 ∧
    (∃ e, (pageFromFile zeroPage (1 : Nat)).run oneLine = .error e oneLine) ∧
    ¬ RejectsOrFinds oneLine [zeroPage] zeroPage 1 := by
  have hrec : FileHolds oneLine [zeroPage] := ⟨rfl, rfl, by decide⟩
  obtain ⟨e, he⟩ := pageFromFile_fault ⟨_, hrec⟩ zeroPage
  refine ⟨written_swapText _, rfl, ⟨e, he⟩, fun h => ?_⟩
  cases he.symm.trans h

/-! ## The token loop -/

/-- The assignments `buffer[i++] = (unsigned char) atoi(token)`, as index and value. -/
def assignments : Nat → List (List Char) → List (Nat × UInt8)
  | _, [] => []
  | i, token :: tokens => (i, UInt8.ofInt (atoi token)) :: assignments (i + 1) tokens

/-- The assignments that `pageFromFile` makes for a line. -/
def Machine.assigned (s : Machine) (linenum : Int) : List (Nat × UInt8) :=
  if linenum > s.linecount then []
  else
    match findLine linenum (s.swapspace.length + 1) s.swapspace with
    | .ok data => assignments 0 data
    | .error _ => []

/-- One assignment; the model of the buffer keeps to its sixteen cells. -/
def Page.assign (buffer : Page) (a : Nat × UInt8) : Page := buffer.setIfInBounds a.1 a.2

theorem fillBuffer_eq (tokens : List (List Char)) : ∀ (buffer : Page) (i : Nat),
    fillBuffer buffer i tokens = (assignments i tokens).foldl Page.assign buffer := by
  induction tokens with
  | nil => intro buffer i; rfl
  | cons token tokens ih => intro buffer i; exact ih _ _

/-- The buffer that `pageFromFile` returns is the given one after these assignments. -/
theorem pageFromFile_assigned {s t : Machine} {buffer filled : Page} {linenum result : Int}
    (h : (pageFromFile buffer linenum).run s = .ok (result, filled) t) :
    filled = (s.assigned linenum).foldl Page.assign buffer := by
  rw [pageFromFile, bind_of_ok get_run] at h
  unfold Machine.assigned
  by_cases hbeyond : linenum > s.linecount
  · rw [if_pos hbeyond] at h ⊢
    obtain ⟨hpair, -⟩ := EStateM.Result.ok.inj h
    exact (Prod.mk.inj hpair).2.symm
  · rw [if_neg hbeyond] at h ⊢
    cases hfind : findLine linenum (s.swapspace.length + 1) s.swapspace with
    | error e =>
      rw [hfind] at h
      cases h
    | ok data =>
      rw [hfind] at h
      obtain ⟨hpair, -⟩ := EStateM.Result.ok.inj h
      rw [← (Prod.mk.inj hpair).2, fillBuffer_eq]

/-- As many cells as there are tokens are assigned, one after the other. -/
theorem assignments_indices (tokens : List (List Char)) :
    ∀ i, (assignments i tokens).map Prod.fst = List.range' i tokens.length := by
  induction tokens with
  | nil => intro i; rfl
  | cons token tokens ih =>
    intro i
    rw [assignments, List.map_cons, ih, List.length_cons, List.range'_succ]

/-- The text of lines with any numbers. -/
def linesText (lines : List (Nat × Page)) : List Char :=
  lines.flatMap fun l => lineText l.1 l.2.toList

theorem length_linesText_ge (lines : List (Nat × Page)) :
    lines.length ≤ (linesText lines).length := by
  induction lines with
  | nil => exact Nat.zero_le _
  | cons l lines ih =>
    have hline : 0 < (lineText l.1 l.2.toList).length := by
      unfold lineText
      simp only [List.length_append, List.length_cons]
      omega
    unfold linesText at ih ⊢
    rw [List.flatMap_cons, List.length_append, List.length_cons]
    omega

/-- The search passes the lines with other numbers, and the newline of the line found is one more
token behind its data. -/
theorem findLine_linesText {linenum : Nat} {blanks : List Char}
    (hblanks : blanks = [] ∨ blanks = [' ']) (hn : linenum < 2 ^ 31) (page : Page)
    (rest : List Char) : ∀ (lines : List (Nat × Page)) (fuel : Nat), lines.length < fuel →
      (∀ l ∈ lines, l.1 < 2 ^ 31 ∧ l.1 ≠ linenum) →
      findLine linenum fuel
          (blanks ++ (linesText lines ++ (lineText linenum page.toList ++ rest))) =
        .ok (page.toList.map (fun b => decimal b.toNat) ++ [['\n']]) := by
  intro lines
  induction lines generalizing blanks with
  | nil =>
    intro fuel hfuel _
    obtain ⟨fuel, rfl⟩ : ∃ n, fuel = n + 1 := ⟨fuel - 1, by omega⟩
    exact (findLine_lineText hblanks hn page rest fuel).trans (if_pos rfl)
  | cons l lines ih =>
    intro fuel hfuel hlines
    obtain ⟨fuel, rfl⟩ : ∃ n, fuel = n + 1 := ⟨fuel - 1, by omega⟩
    obtain ⟨⟨hl, hother⟩, hlines⟩ := List.forall_mem_cons.mp hlines
    have hne : ¬ (l.1 : Int) = (linenum : Int) := fun heq => hother (Int.natCast_inj.mp heq)
    rw [linesText, List.flatMap_cons, List.append_assoc, findLine_lineText hblanks hl, if_neg hne]
    exact ih (.inr rfl) fuel (Nat.lt_of_succ_lt_succ hfuel) hlines

/-- Whatever line is read, the token of its newline is assigned to a seventeenth cell. -/
theorem assigned_indices {s : Machine} {lines : List (Nat × Page)} {linenum : Nat} {page : Page}
    {rest : List Char}
    (htext : s.swapspace = linesText lines ++ (lineText linenum page.toList ++ rest))
    (hlines : ∀ l ∈ lines, l.1 < 2 ^ 31 ∧ l.1 ≠ linenum) (hint : linenum < 2 ^ 31)
    (hcount : linenum ≤ s.linecount) : (s.assigned linenum).map Prod.fst = List.range' 0 17 := by
  have hfuel : lines.length < s.swapspace.length + 1 := by
    have hlen := length_linesText_ge lines
    rw [htext, List.length_append]
    omega
  have hfind := findLine_linesText (.inl rfl) hint page rest lines _ hfuel hlines
  rw [List.nil_append, ← htext] at hfind
  rw [Machine.assigned, if_neg (by omega), hfind]
  dsimp only
  rw [assignments_indices, List.length_append, List.length_map, Vector.length_toList]
  rfl

/-- The token loop stays inside the sixteen bytes only where the guard keeps the line from being
read at all. -/
theorem buffer_inside_iff {s : Machine} {lines : List (Nat × Page)} {linenum : Nat} {page : Page}
    {rest : List Char}
    (htext : s.swapspace = linesText lines ++ (lineText linenum page.toList ++ rest))
    (hlines : ∀ l ∈ lines, l.1 < 2 ^ 31 ∧ l.1 ≠ linenum) (hint : linenum < 2 ^ 31) :
    (∀ a ∈ s.assigned linenum, a.1 < 16) ↔ s.linecount < linenum := by
  constructor
  · intro hinside
    by_contra hcount
    have hlast : 16 ∈ (s.assigned linenum).map Prod.fst := by
      rw [assigned_indices htext hlines hint (not_lt.mp hcount)]
      decide
    obtain ⟨a, ha, hindex⟩ := List.mem_map.mp hlast
    have hlt := hinside a ha
    omega
  · intro hbeyond a ha
    rw [Machine.assigned, if_pos (by omega)] at ha
    exact absurd ha List.not_mem_nil

/-- The last of three lines. -/
theorem buffer_inside_three :
    (∀ a ∈ (withLines threeRecords).assigned (2 : Nat), a.1 < 16) ↔
      (withLines threeRecords).linecount < 2 := by
  have htext : (withLines threeRecords).swapspace =
      linesText [(0, bytesFrom 0), (1, bytesFrom 100)] ++
        (lineText 2 (bytesFrom 240).toList ++ []) := by
    simp [withLines, threeRecords, swapText, linesText]
  exact buffer_inside_iff htext (by decide) (by decide)

/-- The first byte behind the array `temp` is set to zero. -/
theorem buffer_overrun : (16, 0) ∈ oneLine.assigned 0 ∧
    ¬ ∀ a ∈ oneLine.assigned 0, a.1 < 16 := by
  have hlast : (16, 0) ∈ oneLine.assigned 0 := by decide +kernel
  exact ⟨hlast, fun hinside => absurd (hinside _ hlast) (by decide)⟩

end Cs3013.Memory
