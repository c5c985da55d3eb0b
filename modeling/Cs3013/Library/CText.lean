import Mathlib.Algebra.Group.Nat.Defs
import Mathlib.Data.List.TakeWhile
import Mathlib.Tactic.Common

/-!
# Text input and output of the C library

A file or a line buffer is a list of characters, and a character stands for one byte: its code is
below 256, and lengths are counted in bytes. `fgets`, `strtok` and `atoi` follow the
C standard on it, and `decimal` is what `printf` writes for `%d` and `%u` of a number
that is not negative. The facts below say how a printed line is read back: a line of
blank-separated words comes apart into these words, and a printed number reads as itself.
-/
namespace Cs3013.Library.CText

/-- `%d` of a number that is not negative, and `%u`. -/
def decimal (n : Nat) : List Char := Nat.toDigits 10 n

/-- The characters up to and including the first newline, at most `n` of them, and the rest. -/
def takeLine : Nat → List Char → List Char × List Char
  | 0, text => ([], text)
  | _ + 1, [] => ([], [])
  | n + 1, c :: text =>
    if c = '\n' then ([c], text)
    else
      let (line, rest) := takeLine n text
      (c :: line, rest)

/-- `fgets(line, size, f)` on what is left of the file. `none` is the null result at its end. -/
def fgets (size : Nat) (text : List Char) : Option (List Char × List Char) :=
  if text = [] then none else some (takeLine (size - 1) text)

/-- The tokens that `strtok(text, delim)` and the calls `strtok(NULL, delim)` after it return
until the null result, for a delimiter string of one character. -/
def strtok (delim : Char) (text : List Char) : List (List Char) :=
  (text.splitOn delim).filter (· ≠ [])

/-- The string in a buffer. -/
def cString (buffer : List Char) : List Char := buffer.takeWhile (· ≠ '\x00')

/-- `isspace` of the C locale. -/
def isSpace (c : Char) : Bool :=
  c = ' ' || (9 ≤ c.toNat && c.toNat ≤ 13)

def natOfDigits (text : List Char) : Nat :=
  Nat.ofDigitChars 10 (text.takeWhile Char.isDigit) 0

/-- `atoi`: white space, an optional sign, then digits up to the first other character. -/
def atoi (text : List Char) : Int :=
  match text.dropWhile isSpace with
  | '-' :: digits => -(natOfDigits digits : Int)
  | '+' :: digits => natOfDigits digits
  | digits => natOfDigits digits

theorem takeLine_of_newline {body : List Char} (hbody : '\n' ∉ body) (rest : List Char) :
    ∀ n, body.length < n → takeLine n (body ++ '\n' :: rest) = (body ++ ['\n'], rest) := by
  induction body with
  | nil =>
    intro n hn
    cases n with
    | zero => simp at hn
    | succ n => simp [takeLine]
  | cons c body ih =>
    intro n hn
    have hc : c ≠ '\n' := fun h => hbody (by simp [h])
    cases n with
    | zero => simp at hn
    | succ n =>
      have hrest := ih (fun h => hbody (by simp [h])) n (by simpa using hn)
      simp [takeLine, hc, hrest]

theorem length_takeLine_lt : ∀ (n : Nat) (text : List Char), 0 < n → text ≠ [] →
    (takeLine n text).2.length < text.length := by
  intro n
  induction n with
  | zero => intro text hn; exact absurd hn (lt_irrefl 0)
  | succ n ih =>
    intro text _ htext
    cases text with
    | nil => exact absurd rfl htext
    | cons c text =>
      rw [takeLine]
      split_ifs
      · simp
      · by_cases hmore : 0 < n ∧ text ≠ []
        · have h := ih text hmore.1 hmore.2
          simp only [List.length_cons]
          omega
        · have hstop : (takeLine n text).2 = text := by
            rcases Nat.eq_zero_or_pos n with rfl | hn
            · rfl
            · have hnil : text = [] := not_not.mp fun h => hmore ⟨hn, h⟩
              subst hnil
              cases n <;> rfl
          simp [hstop]

theorem length_takeLine_le (n : Nat) (text : List Char) : (takeLine n text).1.length ≤ n := by
  induction n generalizing text with
  | zero => exact Nat.le_refl 0
  | succ n ih =>
    cases text with
    | nil => exact Nat.zero_le _
    | cons c text =>
      rw [takeLine]
      split_ifs
      · exact Nat.succ_le_succ (Nat.zero_le n)
      · exact Nat.succ_le_succ (ih text)

/-- Every successful `fgets` consumes something. -/
theorem length_fgets_lt {size : Nat} (hsize : 1 < size) {text line rest : List Char}
    (h : fgets size text = some (line, rest)) : rest.length < text.length := by
  rw [fgets] at h
  split_ifs at h with htext
  have hrest : (takeLine (size - 1) text).2 = rest := congrArg Prod.snd (Option.some_inj.mp h)
  rw [← hrest]
  exact length_takeLine_lt (size - 1) text (by omega) htext

/-- A line that fits the buffer is read as a whole, newline included. -/
theorem fgets_of_newline {body : List Char} (hbody : '\n' ∉ body) (rest : List Char)
    {size : Nat} (hsize : body.length + 1 < size) :
    fgets size (body ++ '\n' :: rest) = some (body ++ ['\n'], rest) := by
  have h := takeLine_of_newline hbody rest (size - 1) (by omega)
  simp [fgets, h]

theorem strtok_delim (d : Char) (text : List Char) : strtok d (d :: text) = strtok d text := by
  have h := List.splitOn_append_cons_self_of_not_mem (List.not_mem_nil (a := d)) text
  simp only [List.nil_append] at h
  simp [strtok, h]

/-- The first token ends at the first delimiter. -/
theorem strtok_word {d : Char} {word : List Char} (hne : word ≠ []) (hd : d ∉ word)
    (text : List Char) : strtok d (word ++ d :: text) = word :: strtok d text := by
  have h := List.splitOn_append_cons_self_of_not_mem hd text
  simp [strtok, h, hne]

theorem strtok_last {d : Char} {word : List Char} (hne : word ≠ []) (hd : d ∉ word) :
    strtok d word = [word] := by
  have h := List.splitOn_eq_singleton hd
  simp [strtok, h, hne]

/-- Words printed with a delimiter after each come apart into these words. -/
theorem strtok_words {d : Char} (words : List (List Char))
    (hwords : ∀ w ∈ words, w ≠ [] ∧ d ∉ w) (text : List Char) :
    strtok d (words.flatMap (fun w => w ++ [d]) ++ text) = words ++ strtok d text := by
  induction words with
  | nil => rfl
  | cons w words ih =>
    obtain ⟨hne, hd⟩ := hwords w (by simp)
    have hrest := ih fun v hv => hwords v (by simp [hv])
    simp only [List.flatMap_cons, List.append_assoc, List.cons_append, List.nil_append,
      strtok_word hne hd, hrest]

theorem isDigit_of_mem_decimal {n : Nat} {c : Char} (h : c ∈ decimal n) : c.isDigit = true :=
  Nat.isDigit_of_mem_toDigits (by decide) (by decide) h

theorem decimal_ne_nil (n : Nat) : decimal n ≠ [] := Nat.toDigits_ne_nil

theorem not_mem_decimal {c : Char} (hc : c.isDigit = false) (n : Nat) : c ∉ decimal n := by
  intro h
  rw [isDigit_of_mem_decimal h] at hc
  cases hc

theorem length_decimal_le {n k : Nat} (hk : 0 < k) (hn : n < 10 ^ k) : (decimal n).length ≤ k :=
  (Nat.length_toDigits_le_iff (by decide) hk).mpr hn

theorem natOfDigits_decimal (n : Nat) : natOfDigits (decimal n) = n := by
  have h : (decimal n).takeWhile Char.isDigit = decimal n :=
    List.takeWhile_eq_self_iff.mpr fun _ hc => isDigit_of_mem_decimal hc
  rw [natOfDigits, h]
  exact Nat.ofDigitChars_ten_toDigits

private theorem isSpace_of_isDigit {c : Char} (h : c.isDigit = true) : isSpace c = false := by
  simp only [Char.isDigit, Bool.and_eq_true, decide_eq_true_eq] at h
  have h48 : 48 ≤ c.toNat := h.1
  have hne : c ≠ ' ' := by
    intro heq
    subst heq
    exact absurd h48 (by decide)
  have hle : ¬ c.toNat ≤ 13 := by omega
  simp [isSpace, hne, hle]

/-- A text of digits only. -/
def Digits (text : List Char) : Prop := text ≠ [] ∧ ∀ c ∈ text, c.isDigit = true

instance (text : List Char) : Decidable (Digits text) := inferInstanceAs (Decidable (_ ∧ _))

/-- The digits are read up to the first character that is none. -/
theorem atoi_digits {text rest : List Char} (htext : Digits text)
    (hrest : ∀ c ∈ rest.head?, c.isDigit = false) : atoi (text ++ rest) = natOfDigits text := by
  obtain ⟨hne, hall⟩ := htext
  have hself : text.takeWhile Char.isDigit = text := List.takeWhile_eq_self_iff.mpr hall
  have hval : natOfDigits (text ++ rest) = natOfDigits text := by
    have hstop : rest.takeWhile Char.isDigit = [] := by
      cases rest with
      | nil => rfl
      | cons c rest => exact List.takeWhile_cons_of_neg (by simp [hrest c rfl])
    rw [natOfDigits, natOfDigits, List.takeWhile_append_of_pos hall, hstop, hself, List.append_nil]
  obtain ⟨c, cs, rfl⟩ := List.exists_cons_of_ne_nil hne
  have hc : c.isDigit = true := hall c (by simp)
  have hdrop : ((c :: cs) ++ rest).dropWhile isSpace = (c :: cs) ++ rest := by
    rw [List.cons_append, List.dropWhile_cons_of_neg (by simp [isSpace_of_isDigit hc])]
  rw [atoi, hdrop]
  rw [List.cons_append] at hval ⊢
  split
  · next h =>
    rw [(List.cons.inj h).1] at hc
    exact absurd hc (by decide)
  · next h =>
    rw [(List.cons.inj h).1] at hc
    exact absurd hc (by decide)
  · rw [hval]

theorem atoi_number {text : List Char} (htext : Digits text) : atoi text = natOfDigits text := by
  have hread : atoi (text ++ []) = natOfDigits text := atoi_digits htext nofun
  rwa [List.append_nil] at hread

/-- A printed number is read back. -/
theorem atoi_decimal (n : Nat) : atoi (decimal n) = n := by
  rw [atoi_number ⟨decimal_ne_nil n, fun _ hc => isDigit_of_mem_decimal hc⟩, natOfDigits_decimal]

/-- A number is not below its first digit. -/
theorem digit_le_natOfDigits {c : Char} {text : List Char} (h : Digits (c :: text)) :
    c.toNat - 48 ≤ natOfDigits (c :: text) := by
  rw [natOfDigits, List.takeWhile_eq_self_iff.mpr h.2, Nat.ofDigitChars_cons,
    Nat.ofDigitChars_eq_ofDigitChars_zero]
  have hpow : 0 < 10 ^ text.length := Nat.pow_pos (by decide)
  calc c.toNat - 48 = 1 * (10 * 0 + (c.toNat - 48)) := by omega
    _ ≤ 10 ^ text.length * (10 * 0 + (c.toNat - 48)) := Nat.mul_le_mul_right _ hpow
    _ ≤ _ := Nat.le_add_right _ _

end Cs3013.Library.CText
