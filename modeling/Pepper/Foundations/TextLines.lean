import Mathlib.Data.Int.Order.Basic
import Mathlib.Data.List.Basic
import Mathlib.Tactic.Common

/-!
# Numbers in a text file, read line by line through a fixed buffer

A program prints integers in base ten (`decimal`), separated by blanks and ended by newlines, and
another one reads the file back through a buffer of fixed size (`pieces`) and scans the numbers
(`scanNumber`). A line that fits the buffer is read as one piece (`pieces_line`), a longer one as
more than one (`pieces_long`); blank pieces are skipped by the reader, which is `dataPieces`.
-/

set_option autoImplicit false

namespace Pepper.Foundations.TextLines

/-! ## Printing and scanning a number -/

/-- An integer in base ten. -/
def decimal : ℤ → List Char
  | .ofNat n => Nat.toDigits 10 n
  | .negSucc n => '-' :: Nat.toDigits 10 (n + 1)

/-- White space in front of a number. -/
def isBlank (c : Char) : Bool := c == ' ' || c == '\n'

/-- The longest run of digits at the start, with its value. -/
def scanDigits (text : List Char) : Option (ℕ × List Char) :=
  match text.takeWhile Char.isDigit with
  | [] => none
  | ds => some (Nat.ofDigitChars 10 ds 0, text.dropWhile Char.isDigit)

/-- White space is skipped; then a sign may follow, and then a digit has to. -/
def scanNumber (text : List Char) : Option (ℤ × List Char) :=
  match text.dropWhile isBlank with
  | '-' :: rest => (scanDigits rest).map fun r => (-(r.1 : ℤ), r.2)
  | '+' :: rest => (scanDigits rest).map fun r => ((r.1 : ℤ), r.2)
  | rest => (scanDigits rest).map fun r => ((r.1 : ℤ), r.2)

/-- The text goes on with something that is not a digit, or ends. -/
def Delimited (rest : List Char) : Prop := ∀ c ∈ rest.head?, c.isDigit = false

theorem delimited_cons {c : Char} (h : c.isDigit = false) (rest : List Char) :
    Delimited (c :: rest) := by
  intro d hd
  obtain rfl : c = d := Option.some.inj hd
  exact h

theorem takeWhile_digits {ds : List Char} (hds : ∀ c ∈ ds, c.isDigit = true) {rest : List Char}
    (hrest : Delimited rest) :
    (ds ++ rest).takeWhile Char.isDigit = ds ∧ (ds ++ rest).dropWhile Char.isDigit = rest := by
  rw [List.takeWhile_append_of_pos hds, List.dropWhile_append_of_pos hds]
  cases rest with
  | nil => exact ⟨List.append_nil ds, rfl⟩
  | cons c rest =>
      have hc : ¬ c.isDigit = true := by simp [hrest c rfl]
      rw [List.takeWhile_cons_of_neg hc, List.dropWhile_cons_of_neg hc]
      exact ⟨List.append_nil ds, rfl⟩

theorem isDigit_toDigits {n : ℕ} : ∀ c ∈ Nat.toDigits 10 n, c.isDigit = true :=
  fun _ hc => Nat.isDigit_of_mem_toDigits (by decide) (by decide) hc

theorem scanDigits_toDigits (n : ℕ) {rest : List Char} (hrest : Delimited rest) :
    scanDigits (Nat.toDigits 10 n ++ rest) = some (n, rest) := by
  obtain ⟨htake, hdrop⟩ := takeWhile_digits (isDigit_toDigits (n := n)) hrest
  rw [scanDigits, htake, hdrop]
  cases hds : Nat.toDigits 10 n with
  | nil => exact absurd hds Nat.toDigits_ne_nil
  | cons d ds =>
      have hvalue : Nat.ofDigitChars 10 (d :: ds) 0 = n := by
        rw [← hds]
        exact Nat.ofDigitChars_ten_toDigits
      simp [hvalue]

/-- A digit is not a sign and not white space. -/
theorem digit_head {d : Char} (hd : d.isDigit = true) :
    isBlank d = false ∧ d ≠ '-' ∧ d ≠ '+' := by
  refine ⟨?_, ?_, ?_⟩
  · by_contra h
    have hcases : d = ' ' ∨ d = '\n' := by
      rw [Bool.not_eq_false, isBlank, Bool.or_eq_true, beq_iff_eq, beq_iff_eq] at h
      exact h
    rcases hcases with rfl | rfl <;> exact absurd hd (by decide)
  · rintro rfl
    exact absurd hd (by decide)
  · rintro rfl
    exact absurd hd (by decide)

theorem scanNumber_toDigits (n : ℕ) {rest : List Char} (hrest : Delimited rest) :
    scanNumber (Nat.toDigits 10 n ++ rest) = some ((n : ℤ), rest) := by
  have hscan := scanDigits_toDigits n hrest
  cases hds : Nat.toDigits 10 n with
  | nil => exact absurd hds Nat.toDigits_ne_nil
  | cons d ds =>
      rw [hds, List.cons_append] at hscan
      obtain ⟨hblank, hminus, hplus⟩ :=
        digit_head (isDigit_toDigits (n := n) d (hds ▸ List.mem_cons_self))
      rw [scanNumber, List.cons_append, List.dropWhile_cons_of_neg (by simp [hblank])]
      split
      · next heq => exact absurd (List.cons.inj heq).1 hminus
      · next heq => exact absurd (List.cons.inj heq).1 hplus
      · rw [hscan]
        rfl

/-- A printed number is scanned back. -/
theorem scanNumber_decimal (c : ℤ) {rest : List Char} (hrest : Delimited rest) :
    scanNumber (decimal c ++ rest) = some (c, rest) := by
  cases c with
  | ofNat n => exact scanNumber_toDigits n hrest
  | negSucc n =>
      rw [decimal, List.cons_append, scanNumber, List.dropWhile_cons_of_neg (by decide)]
      change (scanDigits (Nat.toDigits 10 (n + 1) ++ rest)).map _ = _
      rw [scanDigits_toDigits _ hrest]
      rfl

/-- White space in front of a number changes nothing. -/
theorem scanNumber_blank (text : List Char) : scanNumber (' ' :: text) = scanNumber text := by
  rw [scanNumber, List.dropWhile_cons_of_pos (by decide), scanNumber]

/-- A printed number is on one line. -/
theorem newline_notMem_decimal (c : ℤ) : '\n' ∉ decimal c := by
  have hdigits : ∀ n : ℕ, '\n' ∉ Nat.toDigits 10 n := fun n h =>
    absurd (isDigit_toDigits _ h) (by decide)
  cases c with
  | ofNat n => exact hdigits n
  | negSucc n =>
      intro h
      rcases List.mem_cons.mp h with h | h
      · exact absurd h (by decide)
      · exact hdigits _ h

/-! ## Reading through a buffer -/

/-- The results of reading a file with a buffer that holds `room` characters, where `current` has
been read into it: a piece ends after a newline, or when the buffer is full. -/
def pieces (room : ℕ) : List Char → List Char → List (List Char)
  | current, [] => if current = [] then [] else [current]
  | current, c :: text =>
      if c = '\n' ∨ (current ++ [c]).length = room then
        (current ++ [c]) :: pieces room [] text
      else pieces room (current ++ [c]) text

/-- The piece does not start with a newline. -/
def isData (piece : List Char) : Bool := piece.head? != some '\n'

/-- The pieces of a file without the blank ones. -/
def dataPieces (room : ℕ) (text : List Char) : List (List Char) :=
  (pieces room [] text).filter isData

variable {room : ℕ}

/-- A blank line is skipped. -/
theorem dataPieces_newline (text : List Char) :
    dataPieces room ('\n' :: text) = dataPieces room text := by
  simp [dataPieces, pieces, isData]

/-- A line that leaves room for its newline. -/
theorem pieces_short (line rest current : List Char) (hline : '\n' ∉ line)
    (hlen : current.length + line.length < room) :
    pieces room current (line ++ '\n' :: rest) =
      (current ++ line ++ ['\n']) :: pieces room [] rest := by
  induction line generalizing current with
  | nil => simp [pieces]
  | cons c line ih =>
      obtain ⟨hc, hline⟩ := not_or.mp (fun h => hline (List.mem_cons.mpr h))
      rw [List.length_cons] at hlen
      have hfull : (current ++ [c]).length ≠ room := by simp; omega
      rw [List.cons_append, pieces, if_neg (not_or.mpr ⟨Ne.symm hc, hfull⟩),
        ih (current ++ [c]) hline (by simp; omega)]
      simp

/-- A line that fills the buffer: its newline is a piece of its own. -/
theorem pieces_full (line rest current : List Char) (hline : '\n' ∉ line) (hne : line ≠ [])
    (hlen : current.length + line.length = room) :
    pieces room current (line ++ '\n' :: rest) =
      (current ++ line) :: ['\n'] :: pieces room [] rest := by
  induction line generalizing current with
  | nil => exact absurd rfl hne
  | cons c line ih =>
      obtain ⟨hc, hline⟩ := not_or.mp (fun h => hline (List.mem_cons.mpr h))
      rw [List.length_cons] at hlen
      by_cases hnil : line = []
      · subst hnil
        have hfull : (current ++ [c]).length = room := by simpa using hlen
        rw [List.cons_append, pieces, if_pos (Or.inr hfull), List.nil_append]
        simp [pieces]
      · have hpos := List.length_pos_of_ne_nil hnil
        have hfull : (current ++ [c]).length ≠ room := by simp; omega
        rw [List.cons_append, pieces, if_neg (not_or.mpr ⟨Ne.symm hc, hfull⟩),
          ih (current ++ [c]) hline hnil (by simp; omega)]
        simp

/-- A line that is longer than the buffer: what is left of it is read from an empty buffer. -/
theorem pieces_over (line rest current : List Char) (hline : '\n' ∉ line)
    (hcurrent : current.length < room) (hlen : room < current.length + line.length) :
    pieces room current (line ++ '\n' :: rest) =
      (current ++ line.take (room - current.length)) ::
        pieces room [] (line.drop (room - current.length) ++ '\n' :: rest) := by
  induction line generalizing current with
  | nil =>
      rw [List.length_nil] at hlen
      omega
  | cons c line ih =>
      obtain ⟨hc, hline⟩ := not_or.mp (fun h => hline (List.mem_cons.mpr h))
      rw [List.length_cons] at hlen
      obtain ⟨k, hk⟩ : ∃ k, room - current.length = k + 1 := ⟨room - current.length - 1, by omega⟩
      rw [List.cons_append, pieces, hk, List.take_succ_cons, List.drop_succ_cons]
      by_cases hfull : (current ++ [c]).length = room
      · obtain rfl : k = 0 := by
          rw [List.length_append, List.length_singleton] at hfull
          omega
        rw [if_pos (Or.inr hfull)]
        rfl
      · have hroom : (current ++ [c]).length < room := by
          rw [List.length_append, List.length_singleton] at hfull ⊢
          omega
        have hsub : room - (current ++ [c]).length = k := by
          rw [List.length_append, List.length_singleton]
          omega
        rw [if_neg (not_or.mpr ⟨Ne.symm hc, hfull⟩),
          ih (current ++ [c]) hline hroom (by simp; omega), hsub, List.append_assoc]
        rfl

/-- A line that starts with something else than a newline does so piece by piece. -/
theorem isData_of_notMem {line r : List Char} (hne : line ≠ []) (hline : '\n' ∉ line) :
    isData (line ++ r) = true := by
  cases line with
  | nil => exact absurd rfl hne
  | cons c line =>
      have hc : c ≠ '\n' := fun h => hline (h ▸ List.mem_cons_self)
      simpa [isData] using hc

/-- A line that fits the buffer is one piece, with or without its newline. -/
theorem dataPieces_line {line : List Char} (rest : List Char) (hne : line ≠ [])
    (hline : '\n' ∉ line) (hlen : line.length ≤ room) :
    dataPieces room (line ++ '\n' :: rest) =
        (line ++ ['\n']) :: dataPieces room rest ∨
      dataPieces room (line ++ '\n' :: rest) = line :: dataPieces room rest := by
  have hdata : isData line = true := by
    simpa using isData_of_notMem (r := []) hne hline
  rcases Nat.lt_or_eq_of_le hlen with hlt | heq
  · left
    rw [dataPieces, pieces_short line rest [] hline (by simpa using hlt), List.nil_append,
      List.filter_cons_of_pos (isData_of_notMem hne hline)]
    rfl
  · right
    rw [dataPieces, pieces_full line rest [] hline hne (by simpa using heq), List.nil_append,
      List.filter_cons_of_pos hdata, List.filter_cons_of_neg (by decide)]
    rfl

/-- Every line is at least one piece, and a line that is longer than the buffer at least two. -/
theorem dataPieces_length (hroom : 0 < room) (n : ℕ) (line rest : List Char) (hn : line.length ≤ n)
    (hne : line ≠ []) (hline : '\n' ∉ line) :
    (dataPieces room rest).length + (if room < line.length then 2 else 1) ≤
      (dataPieces room (line ++ '\n' :: rest)).length := by
  induction n generalizing line with
  | zero => exact absurd (List.length_eq_zero_iff.mp (Nat.le_zero.mp hn)) hne
  | succ n ih =>
      by_cases hlong : room < line.length
      · have hdrop : line.drop room ≠ [] := by simpa using hlong
        have htake : line.take room ≠ [] := by simpa using ⟨Nat.ne_of_gt hroom, hne⟩
        have hmore := ih (line.drop room) (by rw [List.length_drop]; omega) hdrop
          (fun h => hline (List.mem_of_mem_drop h))
        have hdata : isData (line.take room) = true := by
          simpa using isData_of_notMem (r := []) htake fun h => hline (List.mem_of_mem_take h)
        have hpieces : dataPieces room (line ++ '\n' :: rest) =
            line.take room :: dataPieces room (line.drop room ++ '\n' :: rest) := by
          rw [dataPieces, pieces_over line rest [] hline hroom (by simpa using hlong)]
          simp only [List.length_nil, Nat.sub_zero, List.nil_append]
          rw [List.filter_cons_of_pos hdata]
          rfl
        rw [if_pos hlong, hpieces, List.length_cons]
        split at hmore <;> omega
      · rw [if_neg hlong]
        rcases dataPieces_line rest hne hline (Nat.le_of_not_lt hlong) with h | h
        · exact Nat.le_of_eq (by rw [h, List.length_cons])
        · exact Nat.le_of_eq (by rw [h, List.length_cons])

/-- The line has been read into the buffer, with its newline if there was room for it. -/
def PieceOf (line piece : List Char) : Prop := piece = line ∨ piece = line ++ ['\n']

/-- Lines that fit the buffer are read one by one. -/
theorem dataPieces_lines {lines : List (List Char)} (hne : ∀ line ∈ lines, line ≠ [])
    (hline : ∀ line ∈ lines, '\n' ∉ line) (hlen : ∀ line ∈ lines, line.length ≤ room)
    (rest : List Char) :
    ∃ ps, dataPieces room ((lines.flatMap fun line => line ++ ['\n']) ++ rest) =
        ps ++ dataPieces room rest ∧
      List.Forall₂ PieceOf lines ps := by
  induction lines with
  | nil => exact ⟨[], rfl, .nil⟩
  | cons line lines ih =>
      obtain ⟨ps, hps, hpieces⟩ := ih (fun l h => hne l (List.mem_cons_of_mem _ h))
        (fun l h => hline l (List.mem_cons_of_mem _ h))
        fun l h => hlen l (List.mem_cons_of_mem _ h)
      have hcons : ((line :: lines).flatMap fun line => line ++ ['\n']) ++ rest =
          line ++ '\n' :: ((lines.flatMap fun line => line ++ ['\n']) ++ rest) := by
        simp
      rw [hcons]
      rcases dataPieces_line ((lines.flatMap fun line => line ++ ['\n']) ++ rest)
        (hne line List.mem_cons_self) (hline line List.mem_cons_self)
        (hlen line List.mem_cons_self) with h | h
      · exact ⟨(line ++ ['\n']) :: ps, by rw [h, hps]; rfl, .cons (Or.inr rfl) hpieces⟩
      · exact ⟨line :: ps, by rw [h, hps]; rfl, .cons (Or.inl rfl) hpieces⟩

end Pepper.Foundations.TextLines
