import Pepper.Zcc.ZaatarMatrices

/-!
# Reading the matrix file

`ZComputationProver::init_qap` and `ZComputationVerifier::init_qap` read the file of
`generate_zaatar_matrices` line by line through a buffer of `BUFLEN` characters, skip blank lines,
and give the lines to the three matrices by their counts alone.

`qapFile_roundTrips_iff` says when each row of the three matrices is again the linear form of its
constraint: exactly if every line fits the buffer and every column and row an `int`. A coefficient
that is printed with `BUFLEN` digits is read as two lines, one more than the counts allow
(`longCoefficient_fails`).
-/

set_option autoImplicit false

namespace Pepper.Libv.QapFile

open Pepper.Foundations.TextLines Pepper.Libv.QuadraticProgram Pepper.Zcc Pepper.Zcc.Zaatar
open Pepper.Common.Gmp

universe u

/-! ## The reader -/

/-- `BUFLEN`. -/
def bufLen : ℕ := 10240

/-- The number of characters that `fgets` reads at most into the buffer, which ends with a zero. -/
def room : ℕ := bufLen - 1

/-- A number that `%d` stores in the index of a wire or a row. Beyond an `int` it is undefined what
is stored. -/
def toIndex (v : ℤ) : Option ℕ := if 0 ≤ v ∧ v < 2 ^ 31 then some v.toNat else none

/-- `gmp_sscanf(line, "%d %d %Zd", ...)` into an entry that holds `old`: the scan ends at the first
number that is missing, and what follows keeps its value. -/
def scanEntry (old : PolyCompressed) (line : List Char) : Option PolyCompressed :=
  match scanNumber line with
  | none => some old
  | some (i, rest) =>
      (toIndex i).bind fun i =>
        match scanNumber rest with
        | none => some { old with i := i }
        | some (j, rest) =>
            (toIndex j).bind fun j =>
              match scanNumber rest with
              | none => some { old with i := i, j := j }
              | some (coefficient, _) => some ⟨i, j, coefficient⟩

/-- The arrays and the line number. -/
structure ReadState where
  polyA : List PolyCompressed
  polyB : List PolyCompressed
  polyC : List PolyCompressed
  lineNum : ℕ
deriving DecidableEq, Repr

namespace ReadState

/-- The body of the loop for a line that is not blank. There is no entry behind the end of an
array. -/
def readLine (numAij numBij : ℕ) (s : ReadState) (line : List Char) : Option ReadState :=
  if s.lineNum < numAij then
    (s.polyA[s.lineNum]?).bind fun old => (scanEntry old line).map fun e =>
      { s with polyA := s.polyA.set s.lineNum e, lineNum := s.lineNum + 1 }
  else if s.lineNum < numAij + numBij then
    (s.polyB[s.lineNum - numAij]?).bind fun old => (scanEntry old line).map fun e =>
      { s with polyB := s.polyB.set (s.lineNum - numAij) e, lineNum := s.lineNum + 1 }
  else
    (s.polyC[s.lineNum - numAij - numBij]?).bind fun old => (scanEntry old line).map fun e =>
      { s with polyC := s.polyC.set (s.lineNum - numAij - numBij) e, lineNum := s.lineNum + 1 }

/-- The loop. -/
def readLines (numAij numBij : ℕ) : ReadState → List (List Char) → Option ReadState
  | s, [] => some s
  | s, line :: lines => (s.readLine numAij numBij line).bind fun s => readLines numAij numBij s lines

end ReadState

/-- An array after `malloc`, with the coefficients initialised: the indices are what the memory
holds. -/
def alloc (memory : ℕ → ℕ × ℕ) (size : ℕ) : List PolyCompressed :=
  (List.range size).map fun k => ⟨(memory k).1, (memory k).2, 0⟩

/-- The part of `init_qap` that reads the file. -/
def initQap (memory : ℕ → ℕ × ℕ) (numAij numBij numCij : ℕ) (text : List Char) :
    Option (List PolyCompressed × List PolyCompressed × List PolyCompressed) :=
  (ReadState.readLines numAij numBij
    ⟨alloc memory numAij, alloc memory numBij, alloc memory numCij, 0⟩
    (dataPieces room text)).map fun s => (s.polyA, s.polyB, s.polyC)

/-- `ZComputationProver::init_qap`. -/
def ZComputationProver.initQap := QapFile.initQap

/-- `ZComputationVerifier::init_qap`. -/
def ZComputationVerifier.initQap := QapFile.initQap

/-! ## The loop on the three arrays as one -/

namespace ReadState

/-- The three arrays behind each other. -/
def entries (s : ReadState) : List PolyCompressed := s.polyA ++ (s.polyB ++ s.polyC)

/-- The arrays have the sizes of the counts. -/
structure Sized (numAij numBij numCij : ℕ) (s : ReadState) : Prop where
  a : s.polyA.length = numAij
  b : s.polyB.length = numBij
  c : s.polyC.length = numCij

variable {numAij numBij numCij : ℕ} {s s' : ReadState}

theorem Sized.length (h : s.Sized numAij numBij numCij) :
    s.entries.length = numAij + numBij + numCij := by
  rw [entries, List.length_append, List.length_append, h.a, h.b, h.c, Nat.add_assoc]

/-- A line is stored at its number, whichever array that is in. -/
theorem readLine_eq (h : s.Sized numAij numBij numCij) {line : List Char}
    (hs : s.readLine numAij numBij line = some s') :
    ∃ old e, s.entries[s.lineNum]? = some old ∧ scanEntry old line = some e ∧
      s'.entries = s.entries.set s.lineNum e ∧ s'.lineNum = s.lineNum + 1 ∧
      s'.Sized numAij numBij numCij := by
  obtain ⟨ha, hb, hc⟩ := h
  rw [readLine] at hs
  split at hs
  · next hlt =>
      obtain ⟨old, hold, hs⟩ := Option.bind_eq_some_iff.mp hs
      obtain ⟨e, he, rfl⟩ := Option.map_eq_some_iff.mp hs
      refine ⟨old, e, ?_, he, ?_, rfl, by simpa using ha, hb, hc⟩
      · rw [entries, List.getElem?_append_left (ha ▸ hlt), hold]
      · rw [entries, entries, List.set_append_left _ _ (ha ▸ hlt)]
  · next hge =>
      have hleA : s.polyA.length ≤ s.lineNum := ha ▸ Nat.le_of_not_lt hge
      split at hs
      · next hlt =>
          have hltB : s.lineNum - s.polyA.length < s.polyB.length := by omega
          obtain ⟨old, hold, hs⟩ := Option.bind_eq_some_iff.mp hs
          obtain ⟨e, he, rfl⟩ := Option.map_eq_some_iff.mp hs
          refine ⟨old, e, ?_, he, ?_, rfl, ha, by simpa using hb, hc⟩
          · rw [entries, List.getElem?_append_right hleA, List.getElem?_append_left hltB, ha, hold]
          · rw [entries, entries, List.set_append_right _ _ hleA, List.set_append_left _ _ hltB, ha]
      · next hge' =>
          have hleB : s.polyB.length ≤ s.lineNum - s.polyA.length := by omega
          obtain ⟨old, hold, hs⟩ := Option.bind_eq_some_iff.mp hs
          obtain ⟨e, he, rfl⟩ := Option.map_eq_some_iff.mp hs
          refine ⟨old, e, ?_, he, ?_, rfl, ha, hb, by simpa using hc⟩
          · rw [entries, List.getElem?_append_right hleA, List.getElem?_append_right hleB, ha, hb,
              hold]
          · rw [entries, entries, List.set_append_right _ _ hleA, List.set_append_right _ _ hleB, ha,
              hb]

/-- Where there is an entry for a line that can be scanned, the line is stored. -/
theorem readLine_isSome (h : s.Sized numAij numBij numCij) {line : List Char}
    (hlt : s.lineNum < numAij + numBij + numCij) (hline : ∀ old, (scanEntry old line).isSome) :
    ∃ s', s.readLine numAij numBij line = some s' := by
  obtain ⟨ha, hb, hc⟩ := h
  have hentry : ∀ {poly : List PolyCompressed} {k : ℕ}, k < poly.length →
      ∃ old e, poly[k]? = some old ∧ scanEntry old line = some e := by
    intro poly k hk
    obtain ⟨e, he⟩ := Option.isSome_iff_exists.mp (hline poly[k])
    exact ⟨poly[k], e, List.getElem?_eq_getElem hk, he⟩
  rw [readLine]
  split
  · next hltA =>
      obtain ⟨old, e, hold, he⟩ := hentry (ha ▸ hltA)
      exact ⟨_, by rw [hold, Option.bind_some, he]; rfl⟩
  · split
    · next hge hltB =>
        have hindex : s.lineNum - numAij < s.polyB.length := by omega
        obtain ⟨old, e, hold, he⟩ := hentry hindex
        exact ⟨_, by rw [hold, Option.bind_some, he]; rfl⟩
    · next hge hge' =>
        have hindex : s.lineNum - numAij - numBij < s.polyC.length := by omega
        obtain ⟨old, e, hold, he⟩ := hentry hindex
        exact ⟨_, by rw [hold, Option.bind_some, he]; rfl⟩

/-- A run of the loop that ends has an entry for every line, and has scanned every line. -/
theorem readLines_some (lines : List (List Char)) (h : s.Sized numAij numBij numCij)
    (hle : s.lineNum ≤ numAij + numBij + numCij)
    (hs : s.readLines numAij numBij lines = some s') :
    s.lineNum + lines.length ≤ numAij + numBij + numCij ∧
      ∀ line ∈ lines, ∃ old, (scanEntry old line).isSome := by
  induction lines generalizing s with
  | nil => exact ⟨hle, by simp⟩
  | cons line lines ih =>
      obtain ⟨s₁, hline, hs⟩ := Option.bind_eq_some_iff.mp hs
      obtain ⟨old, e, hold, he, -, hnum, hsized⟩ := readLine_eq h hline
      have hlt : s.lineNum < numAij + numBij + numCij := by
        rw [← h.length]
        exact (List.getElem?_eq_some_iff.mp hold).1
      obtain ⟨hcount, hscan⟩ := ih hsized (by omega) hs
      refine ⟨by rw [List.length_cons]; omega, ?_⟩
      intro line' hmem
      rcases List.mem_cons.mp hmem with rfl | hmem
      · exact ⟨old, by rw [he]; rfl⟩
      · exact hscan line' hmem

/-- Lines that are scanned as the entries `es` whatever was stored before fill the arrays with
these, behind the `done` entries already stored. -/
theorem readLines_fill {lines : List (List Char)} {es : List PolyCompressed}
    (hscan : List.Forall₂ (fun e line => ∀ old, scanEntry old line = some e) es lines)
    (h : s.Sized numAij numBij numCij) (hcount : s.lineNum + es.length = numAij + numBij + numCij)
    (done : List PolyCompressed) (hdone : s.entries.take s.lineNum = done) :
    ∃ s', s.readLines numAij numBij lines = some s' ∧ s'.entries = done ++ es ∧
      s'.Sized numAij numBij numCij := by
  induction hscan generalizing s done with
  | nil =>
      refine ⟨s, rfl, ?_, h⟩
      rw [List.append_nil, ← hdone, List.take_of_length_le]
      rw [h.length, ← hcount]
      exact Nat.le_refl _
  | @cons e line es lines he hscan ih =>
      rw [List.length_cons] at hcount
      have hsome : ∀ old, (scanEntry old line).isSome := fun old => by simp [he old]
      obtain ⟨s₁, hline⟩ := readLine_isSome h (by omega) hsome
      obtain ⟨old, e', hold, he', hentries, hnum, hsized⟩ := readLine_eq h hline
      obtain rfl : e = e' := Option.some.inj ((he old).symm.trans he')
      have hlt : s.lineNum < s.entries.length := (List.getElem?_eq_some_iff.mp hold).1
      have hdone' : s₁.entries.take s₁.lineNum = done ++ [e] := by
        rw [hentries, hnum, List.take_add_one, List.take_set_of_le (Nat.le_refl _), hdone,
          List.getElem?_set_self hlt]
        rfl
      obtain ⟨s', hs', hfinal, hsized'⟩ := ih hsized (by omega) (done ++ [e]) hdone'
      refine ⟨s', ?_, ?_, hsized'⟩
      · rw [readLines, hline, Option.bind_some, hs']
      · rw [hfinal, List.append_assoc]
        rfl

end ReadState

/-! ## The lines of the file -/

/-- The line `i j c` fits the buffer, and its indices an `int`. -/
def LineFits (i j : ℕ) (c : ℤ) : Prop :=
  i < 2 ^ 31 ∧ j < 2 ^ 31 ∧ (entryLine ⟨i, j, c⟩).length ≤ room

instance (i j : ℕ) (c : ℤ) : Decidable (LineFits i j c) :=
  inferInstanceAs (Decidable (_ ∧ _ ∧ _))

theorem toIndex_natCast (n : ℕ) : toIndex n = if n < 2 ^ 31 then some n else none := by
  rw [toIndex]
  by_cases h : n < 2 ^ 31
  · rw [if_pos h, if_pos ⟨Int.natCast_nonneg n, by exact_mod_cast h⟩, Int.toNat_natCast]
  · rw [if_neg h, if_neg fun hand => h (by exact_mod_cast hand.2)]

/-- Scanning a written line, with or without its newline. -/
theorem scanEntry_entryLine (e old : PolyCompressed) {rest : List Char} (hrest : Delimited rest) :
    scanEntry old (entryLine e ++ rest) =
      if e.i < 2 ^ 31 ∧ e.j < 2 ^ 31 then some e else none := by
  obtain ⟨i, j, c⟩ := e
  have hblank : ∀ text : List Char, Delimited (' ' :: text) := delimited_cons (by decide)
  have hline : entryLine ⟨i, j, c⟩ ++ rest =
      decimal i ++ ' ' :: (decimal j ++ ' ' :: (decimal c ++ rest)) := by
    simp [entryLine]
  rw [scanEntry, hline, scanNumber_decimal (i : ℤ) (hblank _)]
  simp only [toIndex_natCast]
  by_cases hi : i < 2 ^ 31
  · simp only [hi, ↓reduceIte, Option.bind_some, true_and, scanNumber_blank]
    rw [scanNumber_decimal (j : ℤ) (hblank _)]
    simp only [toIndex_natCast]
    by_cases hj : j < 2 ^ 31
    · simp only [hj, ↓reduceIte, Option.bind_some, scanNumber_blank]
      rw [scanNumber_decimal c hrest]
    · simp only [hj, ↓reduceIte, Option.bind_none]
  · simp only [hi, ↓reduceIte, Option.bind_none, false_and]

theorem entryLine_ne_nil (e : PolyCompressed) : entryLine e ≠ [] := by
  simp [entryLine]

theorem newline_notMem_entryLine (e : PolyCompressed) : '\n' ∉ entryLine e := by
  simp [entryLine, newline_notMem_decimal]

/-- A written line as one piece. -/
def IsPiece (e : PolyCompressed) (line : List Char) : Prop :=
  line = entryLine e ∨ line = entryLine e ++ ['\n']

theorem IsPiece.scanEntry {e : PolyCompressed} {line : List Char} (h : IsPiece e line)
    (old : PolyCompressed) :
    QapFile.scanEntry old line = if e.i < 2 ^ 31 ∧ e.j < 2 ^ 31 then some e else none := by
  rcases h with rfl | rfl
  · have hnil : Delimited [] := by simp [Delimited]
    simpa using scanEntry_entryLine e old hnil
  · exact scanEntry_entryLine e old (delimited_cons (by decide) [])

/-- Every line has its piece. -/
theorem exists_piece {es : List PolyCompressed} {lines : List (List Char)}
    (h : List.Forall₂ IsPiece es lines) {e : PolyCompressed} (he : e ∈ es) :
    ∃ line ∈ lines, IsPiece e line := by
  induction h with
  | nil => exact absurd he List.not_mem_nil
  | cons hpiece _ ih =>
      rcases List.mem_cons.mp he with rfl | he
      · exact ⟨_, List.mem_cons_self, hpiece⟩
      · obtain ⟨line, hline, hpiece'⟩ := ih he
        exact ⟨line, List.mem_cons_of_mem _ hline, hpiece'⟩

theorem matrixText_cons (e : PolyCompressed) (es : List PolyCompressed) (rest : List Char) :
    matrixText (e :: es) ++ rest = entryLine e ++ '\n' :: (matrixText es ++ rest) := by
  simp [matrixText]

/-- Lines that fit the buffer are read one by one. -/
theorem dataPieces_matrixText {es : List PolyCompressed}
    (hes : ∀ e ∈ es, (entryLine e).length ≤ room) (rest : List Char) :
    ∃ lines, dataPieces room (matrixText es ++ rest) = lines ++ dataPieces room rest ∧
      List.Forall₂ IsPiece es lines := by
  have htext : matrixText es = (es.map entryLine).flatMap fun line => line ++ ['\n'] := by
    rw [matrixText, List.flatMap_map]
  have hne : ∀ line ∈ es.map entryLine, line ≠ [] :=
    List.forall_mem_map.2 fun e _ => entryLine_ne_nil e
  obtain ⟨lines, hlines, hpieces⟩ := dataPieces_lines hne
    (List.forall_mem_map.2 fun e _ => newline_notMem_entryLine e) (List.forall_mem_map.2 hes) rest
  have hlinePieces : List.Forall₂ (fun e line => PieceOf (entryLine e) line) es lines :=
    List.forall₂_map_left_iff.1 hpieces
  exact ⟨lines, htext ▸ hlines, hlinePieces⟩

/-- There are at least as many pieces as lines, and more if a line does not fit the buffer. -/
theorem dataPieces_matrixText_length (es : List PolyCompressed) (rest : List Char) :
    es.length + (dataPieces room rest).length ≤
        (dataPieces room (matrixText es ++ rest)).length ∧
      ((∃ e ∈ es, room < (entryLine e).length) → es.length + (dataPieces room rest).length <
        (dataPieces room (matrixText es ++ rest)).length) := by
  induction es with
  | nil => exact ⟨by simp [matrixText], by simp⟩
  | cons e es ih =>
      obtain ⟨hle, hlt⟩ := ih
      have hline := dataPieces_length (by decide : 0 < room) _ (entryLine e) (matrixText es ++ rest)
        (Nat.le_refl _) (entryLine_ne_nil e) (newline_notMem_entryLine e)
      rw [matrixText_cons, List.length_cons]
      refine ⟨by split at hline <;> omega, ?_⟩
      rintro ⟨e', he', hlong⟩
      rcases List.mem_cons.mp he' with rfl | he'
      · rw [if_pos hlong] at hline
        omega
      · have hmore := hlt ⟨e', he', hlong⟩
        split at hline <;> omega

section File

variable {linesA linesB linesC : List PolyCompressed}

/-- The pieces of the file when all lines fit the buffer. -/
theorem dataPieces_fileText
    (hfits : ∀ e ∈ linesA ++ (linesB ++ linesC), (entryLine e).length ≤ room) :
    List.Forall₂ IsPiece (linesA ++ (linesB ++ linesC))
      (dataPieces room (fileText linesA linesB linesC)) := by
  obtain ⟨piecesA, hA, hpiecesA⟩ := dataPieces_matrixText
    (fun e he => hfits e (List.mem_append_left _ he))
    ('\n' :: (matrixText linesB ++ '\n' :: (matrixText linesC ++ ['\n'])))
  obtain ⟨piecesB, hB, hpiecesB⟩ := dataPieces_matrixText
    (fun e he => hfits e (List.mem_append_right _ (List.mem_append_left _ he)))
    ('\n' :: (matrixText linesC ++ ['\n']))
  obtain ⟨piecesC, hC, hpiecesC⟩ := dataPieces_matrixText
    (fun e he => hfits e (List.mem_append_right _ (List.mem_append_right _ he))) ['\n']
  have hend : dataPieces room ['\n'] = [] := dataPieces_newline []
  rw [fileText, hA, dataPieces_newline, hB, dataPieces_newline, hC, hend, List.append_nil]
  exact List.rel_append hpiecesA (List.rel_append hpiecesB hpiecesC)

/-- A line that does not fit the buffer makes more pieces than there are lines. -/
theorem dataPieces_fileText_length
    (hlong : ∃ e ∈ linesA ++ (linesB ++ linesC), room < (entryLine e).length) :
    linesA.length + linesB.length + linesC.length <
      (dataPieces room (fileText linesA linesB linesC)).length := by
  obtain ⟨hleA, hltA⟩ := dataPieces_matrixText_length linesA
    ('\n' :: (matrixText linesB ++ '\n' :: (matrixText linesC ++ ['\n'])))
  obtain ⟨hleB, hltB⟩ := dataPieces_matrixText_length linesB
    ('\n' :: (matrixText linesC ++ ['\n']))
  obtain ⟨hleC, hltC⟩ := dataPieces_matrixText_length linesC ['\n']
  rw [dataPieces_newline] at hleA hltA hleB hltB
  rw [fileText]
  obtain ⟨e, he, hlen⟩ := hlong
  rcases List.mem_append.mp he with he | he
  · have := hltA ⟨e, he, hlen⟩
    omega
  · rcases List.mem_append.mp he with he | he
    · have := hltB ⟨e, he, hlen⟩
      omega
    · have := hltC ⟨e, he, hlen⟩
      omega

/-- The arrays before the first line. -/
theorem allocated_sized (memory : ℕ → ℕ × ℕ) (numAij numBij numCij : ℕ) :
    (⟨alloc memory numAij, alloc memory numBij, alloc memory numCij, 0⟩ : ReadState).Sized
      numAij numBij numCij :=
  ⟨by simp [alloc], by simp [alloc], by simp [alloc]⟩

/-- The file of lines that fit is read back into the arrays of the lines. -/
theorem initQap_fileText (memory : ℕ → ℕ × ℕ)
    (hfits : ∀ e ∈ linesA ++ (linesB ++ linesC), LineFits e.i e.j e.coefficient) :
    initQap memory linesA.length linesB.length linesC.length (fileText linesA linesB linesC) =
      some (linesA, linesB, linesC) := by
  have hscan : List.Forall₂ (fun e line => ∀ old, scanEntry old line = some e)
      (linesA ++ (linesB ++ linesC)) (dataPieces room (fileText linesA linesB linesC)) := by
    have hpieces := dataPieces_fileText fun e he => (hfits e he).2.2
    refine List.Forall₂.imp ?_ ((List.forall₂_and_left _ _).mpr ⟨hfits, hpieces⟩)
    rintro e line ⟨⟨hi, hj, -⟩, hpiece⟩ old
    rw [hpiece.scanEntry old, if_pos ⟨hi, hj⟩]
  obtain ⟨s, hs, hentries, hsized⟩ := ReadState.readLines_fill
    (s := ⟨alloc memory linesA.length, alloc memory linesB.length, alloc memory linesC.length, 0⟩)
    hscan (allocated_sized memory _ _ _) (by simp [Nat.add_assoc]) [] rfl
  rw [List.nil_append] at hentries
  obtain ⟨ha, hrest⟩ := List.append_inj hentries hsized.a
  obtain ⟨hb, hc⟩ := List.append_inj hrest hsized.b
  rw [initQap, hs, Option.map_some, ha, hb, hc]

/-- A file that is read back has lines that fit. -/
theorem fits_of_initQap (memory : ℕ → ℕ × ℕ)
    (h : (initQap memory linesA.length linesB.length linesC.length
      (fileText linesA linesB linesC)).isSome) :
    ∀ e ∈ linesA ++ (linesB ++ linesC), LineFits e.i e.j e.coefficient := by
  obtain ⟨polys, hpolys⟩ := Option.isSome_iff_exists.mp h
  obtain ⟨s, hs, -⟩ := Option.map_eq_some_iff.mp hpolys
  obtain ⟨hcount, hscan⟩ :=
    ReadState.readLines_some _ (allocated_sized memory _ _ _) (Nat.zero_le _) hs
  have hlen : ∀ e ∈ linesA ++ (linesB ++ linesC), (entryLine e).length ≤ room := by
    by_contra hlong
    push Not at hlong
    have hmore := dataPieces_fileText_length hlong
    rw [Nat.zero_add] at hcount
    omega
  intro e he
  -- the piece of `e` has been scanned, so its indices are in range
  obtain ⟨line, hline, hpiece⟩ := exists_piece (dataPieces_fileText hlen) he
  obtain ⟨old, hold⟩ := hscan line hline
  rw [hpiece.scanEntry old] at hold
  by_cases hindex : e.i < 2 ^ 31 ∧ e.j < 2 ^ 31
  · exact ⟨hindex.1, hindex.2, hlen e he⟩
  · rw [if_neg hindex] at hold
    exact absurd hold (by decide)

end File

/-! ## The round trip -/

section RoundTrip

variable {ν : Type u} [LinearOrder ν] (D : Decls ν) (shuffled : ℕ → ℕ)

/-- The linear form of a part over the columns: behind the one the variables under the shuffle, the
inputs and the outputs. -/
def linearForm (w : Vec) (part : Text ν) : ℤ := meaning (fun x => w (Decls.column D shuffled x)) part

/-- Every row of a constraint is the linear form of the constraint's part, and every row behind the
constraints, up to `chi`, is zero. -/
def HasRows (chi : ℕ) (poly : List PolyCompressed) (parts : List (Text ν)) : Prop :=
  ∀ w : Vec, w 0 = 1 →
    (∀ k part, parts[k]? = some part → rowValue poly w (k + 1) = linearForm D shuffled w part) ∧
      ∀ j, parts.length < j → j ≤ chi → rowValue poly w j = 0

/-- The file written for the lines is read back by both parties, into three matrices with the rows
of the basic constraints `bcs`, in a number of rows that is one less than a power of two. -/
def RoundTrips (ceilLog2 : ℕ → ℕ) (lines bcs : List (BasicConstraint ν)) : Prop :=
  ∃ file, generateZaatarMatrices D shuffled ceilLog2 lines = some file ∧
    (∃ k, file.chi + 1 = 2 ^ k) ∧ bcs.length ≤ file.chi ∧
    ∀ memory, ∃ polyA polyB polyC,
      ZComputationProver.initQap memory file.nzA file.nzB file.nzC file.text =
        some (polyA, polyB, polyC) ∧
      ZComputationVerifier.initQap memory file.nzA file.nzB file.nzC file.text =
        some (polyA, polyB, polyC) ∧
      HasRows D shuffled file.chi polyA (bcs.map BasicConstraint.a) ∧
      HasRows D shuffled file.chi polyB (bcs.map BasicConstraint.b) ∧
      HasRows D shuffled file.chi polyC (bcs.map BasicConstraint.c)

/-- The coefficients of a part are printed on lines that fit. -/
def PartFits (j : ℕ) (part : Text ν) : Prop :=
  (MvPolynomial.coeff 0 (symbolic part) ≠ 0 →
    LineFits 0 j (MvPolynomial.coeff 0 (symbolic part))) ∧
  ∀ x, MvPolynomial.coeff (Finsupp.single x 1) (symbolic part) ≠ 0 →
    LineFits (Decls.column D shuffled x) j (MvPolynomial.coeff (Finsupp.single x 1) (symbolic part))

/-- The coefficients of all constraints are printed on lines that fit. -/
def Fits (bcs : List (BasicConstraint ν)) : Prop :=
  ∀ k bc, bcs[k]? = some bc → PartFits D shuffled (k + 1) bc.a ∧ PartFits D shuffled (k + 1) bc.b ∧
    PartFits D shuffled (k + 1) bc.c

variable {D shuffled}

/-- The monomial of a linear term. -/
theorem toFinsupp_factors {t : Term ν} (ht : LinearFactors D (t.factors : Multiset ν)) :
    (t.factors = [] ∧ Multiset.toFinsupp (t.factors : Multiset ν) = 0) ∨
      ∃ x, t.factors = [x] ∧ Multiset.toFinsupp (t.factors : Multiset ν) = Finsupp.single x 1 := by
  rcases ht.cases with hnil | ⟨x, hx, -⟩
  · exact Or.inl ⟨hnil, by rw [hnil]; exact map_zero Multiset.toFinsupp⟩
  · exact Or.inr ⟨x, hx, by rw [hx]; exact Multiset.toFinsupp_singleton x⟩

/-- A part fits if the lines of its terms do. -/
theorem partFits_iff {e : List (Term ν)} (he : LinearTerms D e) (j : ℕ) :
    PartFits D shuffled j (termsText e) ↔
      ∀ t ∈ e, LineFits (termColumn D shuffled t) j t.coeff := by
  rw [PartFits, symbolic_termsText he.canonical.proper]
  constructor
  · rintro ⟨hconst, hname⟩ t ht
    have hcoeff := he.canonical.coeff_mem ht
    have hne := (he.canonical.proper t ht).coeff_ne
    rw [termColumn]
    -- a linear term is a constant or a name with its column
    rcases toFinsupp_factors (he.factors t ht) with ⟨hnil, hm⟩ | ⟨x, hx, hm⟩
    · rw [hm] at hcoeff
      have hfits := hconst (hcoeff ▸ hne)
      rw [hcoeff] at hfits
      simpa [hnil] using hfits
    · rw [hm] at hcoeff
      have hfits := hname x (hcoeff ▸ hne)
      rw [hcoeff] at hfits
      simpa [hx] using hfits
  · intro h
    constructor
    · intro hne
      obtain ⟨t, ht, hm⟩ := exists_mem_of_support (MvPolynomial.mem_support_iff.mpr hne)
      rw [← hm, he.canonical.coeff_mem ht]
      have hfits := h t ht
      rcases toFinsupp_factors (he.factors t ht) with ⟨hnil, -⟩ | ⟨x, -, hm'⟩
      · simpa [termColumn, hnil] using hfits
      · exact absurd (hm'.symm.trans hm) (Finsupp.single_ne_zero.mpr one_ne_zero)
    · intro x hne
      obtain ⟨t, ht, hm⟩ := exists_mem_of_support (MvPolynomial.mem_support_iff.mpr hne)
      rw [← hm, he.canonical.coeff_mem ht]
      have hfits := h t ht
      rcases toFinsupp_factors (he.factors t ht) with ⟨-, hm'⟩ | ⟨y, hy, hm'⟩
      · exact absurd (hm.symm.trans hm') (Finsupp.single_ne_zero.mpr one_ne_zero)
      · obtain rfl : y = x := Finsupp.single_left_injective one_ne_zero (hm'.symm.trans hm)
        simpa [termColumn, hy] using hfits

/-- The lines of a matrix fit if its parts do. -/
theorem partLines_fits {es : List (Expanded ν)} {part : Expanded ν → List (Term ν)}
    (hes : ∀ e ∈ es, LinearTerms D (part e)) :
    (∀ entry ∈ partLines D shuffled es part, LineFits entry.i entry.j entry.coefficient) ↔
      ∀ k e, es[k]? = some e → PartFits D shuffled (k + 1) (termsText (part e)) := by
  have hplaceholder : LineFits 0 0 0 := by decide
  have hrows : ∀ start, (∀ entry ∈ rowsFrom D shuffled start (es.map part),
        LineFits entry.i entry.j entry.coefficient) ↔
      ∀ k e, es[k]? = some e → PartFits D shuffled (start + k) (termsText (part e)) := by
    induction es with
    | nil => simp [rowsFrom]
    | cons e es ih =>
        intro start
        rw [List.map_cons, rowsFrom, List.forall_mem_append,
          ih (fun e' h => hes e' (List.mem_cons_of_mem _ h)) (start + 1)]
        have hhead : (∀ entry ∈ (part e).map (termEntry D shuffled start),
              LineFits entry.i entry.j entry.coefficient) ↔
            PartFits D shuffled start (termsText (part e)) := by
          rw [List.forall_mem_map, partFits_iff (hes e List.mem_cons_self)]
          rfl
        rw [hhead]
        -- row by row, the first one apart
        constructor
        · rintro ⟨hfirst, hrest⟩ k e' hk
          cases k with
          | zero =>
              obtain rfl : e = e' := by simpa using hk
              exact hfirst
          | succ k =>
              have hfits := hrest k e' (by simpa using hk)
              rwa [Nat.add_assoc, Nat.add_comm 1 k] at hfits
        · intro h
          refine ⟨h 0 e rfl, fun k e' hk => ?_⟩
          have hfits := h (k + 1) e' (by simpa using hk)
          rwa [Nat.add_assoc, Nat.add_comm 1 k]
  -- the placeholder of an empty file fits as well
  have hpadded : (∀ entry ∈ partLines D shuffled es part,
        LineFits entry.i entry.j entry.coefficient) ↔
      ∀ entry ∈ rowsFrom D shuffled 1 (es.map part),
        LineFits entry.i entry.j entry.coefficient := by
    rw [partLines, padded]
    split
    · next hnil => simpa [hnil] using hplaceholder
    · exact Iff.rfl
  rw [hpadded, hrows 1]
  simp only [Nat.add_comm 1]

/-- The lines of a matrix have the rows of its parts. -/
theorem partLines_hasRows {es : List (Expanded ν)} {part : Expanded ν → List (Term ν)}
    (hes : ∀ e ∈ es, LinearTerms D (part e)) (chi : ℕ) :
    HasRows D shuffled chi (partLines D shuffled es part)
      (es.map fun e => termsText (part e)) := by
  intro w hone
  constructor
  · intro k n hk
    rw [List.getElem?_map] at hk
    obtain ⟨e, he, rfl⟩ := Option.map_eq_some_iff.mp hk
    have hlinear := hes e (List.mem_of_getElem? he)
    have hparts : ∀ terms ∈ es.map part, LinearTerms D terms := by
      simpa using hes
    rw [partLines, rowValue_padded, Nat.add_comm k 1,
      rowValue_rowsFrom shuffled hparts hone 1 (by rw [List.getElem?_map, he]; rfl), linearForm,
      meaning_termsText _ hlinear.canonical.proper]
  · intro j hj _
    rw [List.length_map] at hj
    rw [partLines, rowValue_padded, rowValue_rowsFrom_out shuffled _ w
      (Or.inr (by rw [List.length_map, Nat.add_comm]; exact hj))]

/-- The basic constraints of lines are given by canonical terms, and linear terms if they are
linear. -/
theorem exists_expanded {lines bcs : List (BasicConstraint ν)}
    (hbcs : toBasicConstraints lines = some bcs) (hlinear : ∀ bc ∈ bcs, bc.Linear D) :
    ∃ es : List (Expanded ν), bcs = es.map Expanded.text ∧ ∀ e ∈ es, e.Linear D := by
  obtain ⟨es, hes, hlines⟩ := toBasicConstraints_eq lines
  obtain rfl : bcs = es.map Expanded.text := Option.some.inj (hbcs.symm.trans hlines)
  exact ⟨es, rfl, fun e he => (hes e he).linear (hlinear _ (List.mem_map_of_mem he))⟩

/-- The constraints fit if the lines of the three matrices do. -/
theorem fits_iff {es : List (Expanded ν)} (hes : ∀ e ∈ es, e.Linear D) :
    Fits D shuffled (es.map Expanded.text) ↔
      ∀ entry ∈ partLines D shuffled es Expanded.a ++
        (partLines D shuffled es Expanded.b ++ partLines D shuffled es Expanded.c),
        LineFits entry.i entry.j entry.coefficient := by
  rw [List.forall_mem_append, List.forall_mem_append, partLines_fits fun e he => (hes e he).a,
    partLines_fits fun e he => (hes e he).b, partLines_fits fun e he => (hes e he).c]
  constructor
  · intro h
    have hget : ∀ k e, es[k]? = some e → _ := fun k e hk =>
      h k e.text (by rw [List.getElem?_map, hk]; rfl)
    exact ⟨fun k e hk => (hget k e hk).1, fun k e hk => (hget k e hk).2.1,
      fun k e hk => (hget k e hk).2.2⟩
  · rintro ⟨ha, hb, hc⟩ k bc hk
    rw [List.getElem?_map] at hk
    obtain ⟨e, he, rfl⟩ := Option.map_eq_some_iff.mp hk
    exact ⟨ha k e he, hb k e he, hc k e he⟩

/-- Constraints that are read back fit. -/
theorem fits_of_roundTrips {ceilLog2 : ℕ → ℕ} {lines bcs : List (BasicConstraint ν)}
    (hbcs : toBasicConstraints lines = some bcs) (hlinear : ∀ bc ∈ bcs, bc.Linear D)
    (h : RoundTrips D shuffled ceilLog2 lines bcs) : Fits D shuffled bcs := by
  obtain ⟨es, rfl, hes⟩ := exists_expanded hbcs hlinear
  obtain ⟨file, hfile, -, -, hread⟩ := h
  rw [generateZaatarMatrices_eq shuffled ceilLog2 hbcs hes] at hfile
  obtain rfl := Option.some.inj hfile
  obtain ⟨polyA, polyB, polyC, hprover, -⟩ := hread fun _ => (0, 0)
  rw [fits_iff hes]
  exact fits_of_initQap (fun _ => (0, 0)) (Option.isSome_iff_exists.mpr ⟨_, hprover⟩)

/-- The file round trip: the rows read back are those of the basic constraints exactly if every
coefficient is printed on a line that fits the buffer, with indices that fit an `int`. -/
theorem qapFile_roundTrips_iff {ceilLog2 : ℕ → ℕ} {lines bcs : List (BasicConstraint ν)}
    (hbcs : toBasicConstraints lines = some bcs) (hlinear : ∀ bc ∈ bcs, bc.Linear D)
    (hlog : bcs.length + 1 ≤ 2 ^ ceilLog2 (bcs.length + 1)) :
    RoundTrips D shuffled ceilLog2 lines bcs ↔ Fits D shuffled bcs := by
  constructor
  · exact fits_of_roundTrips hbcs hlinear
  · intro hfits
    obtain ⟨es, rfl, hes⟩ := exists_expanded hbcs hlinear
    rw [fits_iff hes] at hfits
    rw [List.length_map] at hlog
    refine ⟨_, generateZaatarMatrices_eq shuffled ceilLog2 hbcs hes, ⟨ceilLog2 (es.length + 1), ?_⟩,
      ?_, fun memory => ⟨_, _, _, initQap_fileText memory hfits, initQap_fileText memory hfits, ?_⟩⟩
    · exact Nat.sub_add_cancel Nat.one_le_two_pow
    · rw [List.length_map]
      exact Nat.le_sub_of_add_le hlog
    · refine ⟨?_, ?_, ?_⟩
      · rw [List.map_map]
        exact partLines_hasRows (fun e he => (hes e he).a) _
      · rw [List.map_map]
        exact partLines_hasRows (fun e he => (hes e he).b) _
      · rw [List.map_map]
        exact partLines_hasRows (fun e he => (hes e he).c) _

end RoundTrip

/-! ## A coefficient that does not fit -/

section LongCoefficient

/-- No names. -/
def noDecls : Decls ℕ := ⟨[], [], [], by simp⟩

/-- `( c ) * ( ) + ( )`. -/
def constTerms (c : ℤ) : Expanded ℕ := ⟨[⟨some c, []⟩], [], []⟩

theorem constTerms_linear {c : ℤ} (hc : c ≠ 0) : (constTerms c).Linear noDecls where
  a :=
    { canonical := ⟨by simp [constTerms], by simp [constTerms],
        by simpa [constTerms, Term.Proper] using hc⟩
      factors := by simpa [constTerms] using LinearFactors.const }
  b := LinearTerms.nil
  c := LinearTerms.nil

/-- The constant has to be printed on a line of the buffer. -/
theorem length_of_constTerms_fits {c : ℤ} (hc : c ≠ 0)
    (h : Fits noDecls id [(constTerms c).text]) : (decimal c).length ≤ bufLen := by
  obtain ⟨ha, -⟩ := h 0 _ rfl
  have hterms : (constTerms c).text.a = termsText (constTerms c).a := rfl
  rw [hterms, partFits_iff (constTerms_linear hc).a] at ha
  obtain ⟨-, -, hlen⟩ := ha ⟨some c, []⟩ List.mem_cons_self
  have hcoeff : Term.coeff (⟨some c, []⟩ : Term ℕ) = c := rfl
  simp only [hcoeff, entryLine, List.length_append, List.length_cons] at hlen
  have hroom : room ≤ bufLen := Nat.sub_le _ _
  omega

/-- The smallest number of `BUFLEN + 1` digits. -/
def longCoefficient : ℤ := (10 : ℤ) ^ bufLen

theorem longCoefficient_length : bufLen < (decimal longCoefficient).length := by
  have hcast : longCoefficient = Int.ofNat (10 ^ bufLen) := (Nat.cast_pow 10 bufLen).symm
  by_contra hle
  rw [hcast, decimal, not_lt, Nat.length_toDigits_le_iff (by decide) (by decide)] at hle
  exact absurd hle (lt_irrefl _)

/-- A constraint with a coefficient of `BUFLEN + 1` digits is linear and is not read back. -/
theorem longCoefficient_fails :
    toBasicConstraints [(constTerms longCoefficient).text] =
        some [(constTerms longCoefficient).text] ∧
      (constTerms longCoefficient).text.Linear noDecls ∧
      ¬ RoundTrips noDecls id (Nat.clog 2) [(constTerms longCoefficient).text]
        [(constTerms longCoefficient).text] := by
  have hne : longCoefficient ≠ 0 := pow_ne_zero _ (by norm_num)
  have hlinear := constTerms_linear hne
  have hbcs : toBasicConstraints [(constTerms longCoefficient).text] =
      some [(constTerms longCoefficient).text] := by
    rw [toBasicConstraints, expandBasicConstraint_text hlinear]
    rfl
  refine ⟨hbcs, hlinear.text, fun h => ?_⟩
  have hfits := fits_of_roundTrips hbcs (by simpa using hlinear.text) h
  exact absurd (length_of_constTerms_fits hne hfits) (not_le_of_gt longCoefficient_length)

/-- One variable. -/
def bitDecls : Decls ℕ := ⟨[], [], [0], by simp⟩

/-- `( V0 ) * ( V0 - 1 ) + ( )`. -/
def bitTerms : Expanded ℕ := ⟨[⟨some 1, [0]⟩], [⟨some 1, [0]⟩, ⟨some (-1), []⟩], []⟩

theorem bitTerms_linear : bitTerms.Linear bitDecls where
  a :=
    { canonical := ⟨by decide, by decide, by simp [bitTerms, Term.Proper]⟩
      factors := by simpa [bitTerms] using LinearFactors.name (D := bitDecls) (x := 0) (by decide) }
  b :=
    { canonical := ⟨by decide, by decide, by simp [bitTerms, Term.Proper]⟩
      factors := by
        simpa [bitTerms] using
          ⟨LinearFactors.name (D := bitDecls) (x := 0) (by decide), LinearFactors.const⟩ }
  c := LinearTerms.nil

theorem bitTerms_fits : Fits bitDecls id [bitTerms.text] := by
  intro k bc hk
  obtain ⟨rfl, rfl⟩ : k = 0 ∧ bitTerms.text = bc := by
    cases k with
    | zero => exact ⟨rfl, by simpa using hk⟩
    | succ k => simp at hk
  refine ⟨(partFits_iff bitTerms_linear.a 1).mpr ?_, (partFits_iff bitTerms_linear.b 1).mpr ?_,
    (partFits_iff bitTerms_linear.c 1).mpr ?_⟩
  · decide
  · decide
  · decide

/-- The constraint of a bit is read back. -/
theorem bitTerms_roundTrips :
    RoundTrips bitDecls id (Nat.clog 2) [bitTerms.text] [bitTerms.text] := by
  have hbcs : toBasicConstraints [bitTerms.text] = some [bitTerms.text] := by
    rw [toBasicConstraints, expandBasicConstraint_text bitTerms_linear]
    rfl
  exact (qapFile_roundTrips_iff hbcs (by simpa using bitTerms_linear.text)
    (Nat.le_pow_clog (by decide) _)).mpr bitTerms_fits

end LongCoefficient

end Pepper.Libv.QapFile
