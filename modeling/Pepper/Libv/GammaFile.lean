import Pepper.Libv.Queries
import Pepper.Libv.QapFile
import Pepper.Zcc.Gamma

/-!
# Reading the coefficient files

The back end writes the lines of the two coefficient files as text, and `parse_gamma12` and
`parse_gamma0` read them line by line through a buffer of `BUFLEN` characters, skip blank lines,
and scan the numbers of the others.

`parseGamma12_eq` and `parseGamma0_eq`: lines that fit the buffer and have numbers that fit an
`int` are read back one by one. Whether the lines of a spec do so can be seen from the
coefficients of its constraints (`SpecFits`, `generateFrom_fits`). A longer line is read as two.
-/

set_option autoImplicit false

open Pepper.Common.Gmp Pepper.Foundations Pepper.Foundations.TextLines
open Pepper.Libv.Queries Pepper.Libv.QapFile Pepper.Zcc

namespace Pepper.Libv.GammaFile

universe u

/-! ## The text -/

/-- `G %s %d %d` and `C %s %d 0`. -/
def gamma0Text : Gamma0Line → List Char
  | .io coefficient constraintId varId =>
      'G' :: ' ' :: (decimal coefficient ++ ' ' :: (decimal constraintId ++ ' ' :: decimal varId))
  | .const coefficient constraintId =>
      'C' :: ' ' :: (decimal coefficient ++ ' ' :: (decimal constraintId ++ ' ' :: decimal 0))

/-- `1 %s %s %s 0` and `2 %s %s %s %s`. Of the text between the two numbers of a pair the blank in
front of the second is left. -/
def gamma12Text : Gamma12Line → List Char
  | .gamma1 coefficient constraintId varIdX =>
      decimal 1 ++ ' ' :: (decimal coefficient ++ ' ' :: (decimal constraintId ++ ' ' ::
        (decimal varIdX ++ ' ' :: decimal 0)))
  | .gamma2 coefficient constraintId varIdX varIdY =>
      decimal 2 ++ ' ' :: (decimal coefficient ++ ' ' :: (decimal constraintId ++ ' ' ::
        (decimal varIdX ++ ' ' :: ' ' :: decimal varIdY)))

/-- The lines joined by newlines, and the newline of the template. -/
def fileText (lines : List (List Char)) : List Char := List.intercalate ['\n'] lines ++ ['\n']

/-! ## The readers -/

/-- One conversion of `gmp_sscanf`: a number is stored, and the scan goes on behind it. Where there
is no number the scan ends, and what follows keeps its value. -/
def conversion {σ : Type} (store : ℤ → σ → Option σ) (next : List Char → σ → Option σ)
    (line : List Char) (s : σ) : Option σ :=
  match scanNumber line with
  | none => some s
  | some (v, rest) => (store v s).bind (next rest)

/-- `%d`. Beyond an `int` it is undefined what is stored. -/
def storeInt {σ : Type} (set : ℤ → σ → σ) (v : ℤ) (s : σ) : Option σ :=
  if -2 ^ 31 ≤ v ∧ v < 2 ^ 31 then some (set v s) else none

/-- The cell of an array that an `int` names. -/
def cell (i : ℤ) : Option ℕ := if 0 ≤ i then some i.toNat else none

/-- The local variables of `parse_gamma12`. -/
structure Scanned12 where
  gamma1Or2 : ℤ
  coefficient : ℤ
  constraintId : ℤ
  varIdX : ℤ
  varIdY : ℤ
deriving DecidableEq, Repr

/-- `gmp_sscanf(line, "%d %Zd %d %d %d", ...)`. -/
def scanGamma12 : List Char → Scanned12 → Option Scanned12 :=
  conversion (storeInt fun v s => { s with gamma1Or2 := v }) <|
  conversion (fun v s => some { s with coefficient := v }) <|
  conversion (storeInt fun v s => { s with constraintId := v }) <|
  conversion (storeInt fun v s => { s with varIdX := v }) <|
  conversion (storeInt fun v s => { s with varIdY := v }) fun _ s => some s

/-- One line of the file for the variables: `alpha[constraint_id] * coefficient` is added to the
cell of the variable, or of the pair. -/
def addGamma12 (n : ℕ) (F1Index : ℕ → ℕ) (alpha : Vec) (g : Vec × Vec) : Gamma12Line → Vec × Vec
  | .gamma1 coefficient constraintId varIdX =>
      let index := F1Index varIdX
      (Function.update g.1 index (g.1 index + alpha constraintId * coefficient), g.2)
  | .gamma2 coefficient constraintId varIdX varIdY =>
      let index := F1Index varIdX * n + F1Index varIdY
      (g.1, Function.update g.2 index (g.2 index + alpha constraintId * coefficient))

/-- What the local variables say is added. -/
def Scanned12.add (n : ℕ) (F1Index : ℕ → ℕ) (alpha : Vec) (g : Vec × Vec) (s : Scanned12) :
    Option (Vec × Vec) :=
  if s.gamma1Or2 = 1 then
    (cell s.constraintId).bind fun constraintId => (cell s.varIdX).map fun varIdX =>
      addGamma12 n F1Index alpha g (.gamma1 s.coefficient constraintId varIdX)
  else if s.gamma1Or2 = 2 then
    (cell s.constraintId).bind fun constraintId => (cell s.varIdX).bind fun varIdX =>
      (cell s.varIdY).map fun varIdY =>
        addGamma12 n F1Index alpha g (.gamma2 s.coefficient constraintId varIdX varIdY)
  else some g

/-- The loop of `parse_gamma12`. -/
def readGamma12 (n : ℕ) (F1Index : ℕ → ℕ) (alpha : Vec) :
    Scanned12 → Vec × Vec → List (List Char) → Option (Vec × Vec)
  | _, g, [] => some g
  | s, g, line :: lines =>
      (scanGamma12 line s).bind fun s => (s.add n F1Index alpha g).bind fun g =>
        readGamma12 n F1Index alpha { s with gamma1Or2 := 0 } g lines

/-- `parse_gamma12`: both vectors start empty. The coefficient is initialised, the other local
variables are what the memory holds. -/
def parseGamma12 (n : ℕ) (F1Index : ℕ → ℕ) (alpha : Vec) (memory : Scanned12)
    (file : List Char) : Option (Vec × Vec) :=
  readGamma12 n F1Index alpha { memory with coefficient := 0 } (zeroVec, zeroVec)
    (dataPieces room file)

/-- The local variables of `parse_gamma0`. -/
structure Scanned0 where
  g : Char
  coefficient : ℤ
  constraintId : ℤ
  varId : ℤ
deriving DecidableEq, Repr

/-- `gmp_sscanf(line, "%c %Zd %d %d", ...)`. -/
def scanGamma0 : List Char → Scanned0 → Option Scanned0
  | [], s => some s
  | c :: line, s =>
      (conversion (fun v s => some { s with coefficient := v }) <|
        conversion (storeInt fun v s => { s with constraintId := v }) <|
        conversion (storeInt fun v s => { s with varId := v }) fun _ s => some s)
        line { s with g := c }

/-- One line of the file for inputs, outputs and constants. -/
def addGamma0 (alpha inputOutput : Vec) (cValue : ℤ) : Gamma0Line → ℤ
  | .io coefficient constraintId varId =>
      cValue + alpha constraintId * coefficient * inputOutput varId
  | .const coefficient constraintId => cValue + alpha constraintId * coefficient

/-- What the local variables say is added. -/
def Scanned0.add (alpha inputOutput : Vec) (cValue : ℤ) (s : Scanned0) : Option ℤ :=
  if s.g = 'G' then
    (cell s.constraintId).bind fun constraintId => (cell s.varId).map fun varId =>
      addGamma0 alpha inputOutput cValue (.io s.coefficient constraintId varId)
  else if s.g = 'C' then
    (cell s.constraintId).map fun constraintId =>
      addGamma0 alpha inputOutput cValue (.const s.coefficient constraintId)
  else some cValue

/-- The loop of `parse_gamma0` for one instance. -/
def readGamma0 (alpha inputOutput : Vec) : Scanned0 → ℤ → List (List Char) → Option ℤ
  | _, cValue, [] => some cValue
  | s, cValue, line :: lines =>
      (scanGamma0 line s).bind fun s => (s.add alpha inputOutput cValue).bind fun cValue =>
        readGamma0 alpha inputOutput { s with g := 'X' } cValue lines

/-- `parse_gamma0`, for one instance and one repetition; the value starts at zero. -/
def parseGamma0 (alpha inputOutput : Vec) (memory : Scanned0) (file : List Char) : Option ℤ :=
  readGamma0 alpha inputOutput { memory with coefficient := 0 } 0 (dataPieces room file)

/-! ## Lines that are read back -/

/-- A line fits the buffer, and its numbers an `int`. -/
def Gamma0Fits : Gamma0Line → Prop
  | .io coefficient constraintId varId =>
      constraintId < 2 ^ 31 ∧ varId < 2 ^ 31 ∧
        (gamma0Text (.io coefficient constraintId varId)).length ≤ room
  | .const coefficient constraintId =>
      constraintId < 2 ^ 31 ∧ (gamma0Text (.const coefficient constraintId)).length ≤ room

/-- A line fits the buffer, and its numbers an `int`. -/
def Gamma12Fits : Gamma12Line → Prop
  | .gamma1 coefficient constraintId varIdX =>
      constraintId < 2 ^ 31 ∧ varIdX < 2 ^ 31 ∧
        (gamma12Text (.gamma1 coefficient constraintId varIdX)).length ≤ room
  | .gamma2 coefficient constraintId varIdX varIdY =>
      constraintId < 2 ^ 31 ∧ varIdX < 2 ^ 31 ∧ varIdY < 2 ^ 31 ∧
        (gamma12Text (.gamma2 coefficient constraintId varIdX varIdY)).length ≤ room

instance : (l : Gamma0Line) → Decidable (Gamma0Fits l)
  | .io _ _ _ => inferInstanceAs (Decidable (_ ∧ _ ∧ _))
  | .const _ _ => inferInstanceAs (Decidable (_ ∧ _))

instance : (l : Gamma12Line) → Decidable (Gamma12Fits l)
  | .gamma1 _ _ _ => inferInstanceAs (Decidable (_ ∧ _ ∧ _))
  | .gamma2 _ _ _ _ => inferInstanceAs (Decidable (_ ∧ _ ∧ _ ∧ _))

section Scan

variable {σ : Type} {store : ℤ → σ → Option σ} {next : List Char → σ → Option σ}

theorem conversion_decimal (v : ℤ) {rest : List Char} (hrest : Delimited rest) (s : σ) :
    conversion store next (decimal v ++ rest) s = (store v s).bind (next rest) := by
  rw [conversion, scanNumber_decimal v hrest]

theorem conversion_blank (text : List Char) (s : σ) :
    conversion store next (' ' :: text) s = conversion store next text s := by
  rw [conversion, conversion, scanNumber_blank]

theorem storeInt_natCast {set : ℤ → σ → σ} {v : ℕ} (hv : v < 2 ^ 31) (s : σ) :
    storeInt set v s = some (set v s) := by
  rw [storeInt, if_pos ⟨by omega, by exact_mod_cast hv⟩]

theorem delimited_blank (text : List Char) : Delimited (' ' :: text) :=
  delimited_cons (by decide) text

end Scan

theorem cell_natCast (i : ℕ) : cell i = some i := by
  rw [cell, if_pos (Int.natCast_nonneg i), Int.toNat_natCast]

/-- The local variables behind a line. -/
def scanned12 : Gamma12Line → Scanned12
  | .gamma1 coefficient constraintId varIdX => ⟨1, coefficient, constraintId, varIdX, 0⟩
  | .gamma2 coefficient constraintId varIdX varIdY =>
      ⟨2, coefficient, constraintId, varIdX, varIdY⟩

/-- The local variables behind a line. -/
def scanned0 : Gamma0Line → Scanned0
  | .io coefficient constraintId varId => ⟨'G', coefficient, constraintId, varId⟩
  | .const coefficient constraintId => ⟨'C', coefficient, constraintId, 0⟩

/-- A written line is scanned as it stands. -/
theorem scanGamma12_text {l : Gamma12Line} (hl : Gamma12Fits l) {rest : List Char}
    (hrest : Delimited rest) (s : Scanned12) :
    scanGamma12 (gamma12Text l ++ rest) s = some (scanned12 l) := by
  have hone : ∀ {set : ℤ → Scanned12 → Scanned12} {s}, storeInt set 1 s = some (set 1 s) :=
    fun {set s} => storeInt_natCast (v := 1) (by decide) s
  have htwo : ∀ {set : ℤ → Scanned12 → Scanned12} {s}, storeInt set 2 s = some (set 2 s) :=
    fun {set s} => storeInt_natCast (v := 2) (by decide) s
  have hzero : ∀ {set : ℤ → Scanned12 → Scanned12} {s}, storeInt set 0 s = some (set 0 s) :=
    fun {set s} => storeInt_natCast (v := 0) (by decide) s
  cases l with
  | gamma1 coefficient constraintId varIdX =>
      obtain ⟨hid, hx, -⟩ := hl
      simp only [scanGamma12, gamma12Text, List.append_assoc, List.cons_append, conversion_blank,
        conversion_decimal _ (delimited_blank _), conversion_decimal _ hrest, hone, hzero,
        storeInt_natCast hid, storeInt_natCast hx, Option.bind_some, scanned12]
  | gamma2 coefficient constraintId varIdX varIdY =>
      obtain ⟨hid, hx, hy, -⟩ := hl
      simp only [scanGamma12, gamma12Text, List.append_assoc, List.cons_append, conversion_blank,
        conversion_decimal _ (delimited_blank _), conversion_decimal _ hrest, htwo,
        storeInt_natCast hid, storeInt_natCast hx, storeInt_natCast hy, Option.bind_some, scanned12]

/-- A written line is scanned as it stands. -/
theorem scanGamma0_text {l : Gamma0Line} (hl : Gamma0Fits l) {rest : List Char}
    (hrest : Delimited rest) (s : Scanned0) :
    scanGamma0 (gamma0Text l ++ rest) s = some (scanned0 l) := by
  have hzero : ∀ {set : ℤ → Scanned0 → Scanned0} {s}, storeInt set 0 s = some (set 0 s) :=
    fun {set s} => storeInt_natCast (v := 0) (by decide) s
  cases l with
  | io coefficient constraintId varId =>
      obtain ⟨hid, hvar, -⟩ := hl
      simp only [scanGamma0, gamma0Text, List.append_assoc, List.cons_append, conversion_blank,
        conversion_decimal _ (delimited_blank _), conversion_decimal _ hrest,
        storeInt_natCast hid, storeInt_natCast hvar, Option.bind_some, scanned0]
  | const coefficient constraintId =>
      obtain ⟨hid, -⟩ := hl
      simp only [scanGamma0, gamma0Text, List.append_assoc, List.cons_append, conversion_blank,
        conversion_decimal _ (delimited_blank _), conversion_decimal _ hrest, hzero,
        storeInt_natCast hid, Option.bind_some, scanned0]

theorem add_scanned12 (n : ℕ) (F1Index : ℕ → ℕ) (alpha : Vec) (g : Vec × Vec) (l : Gamma12Line) :
    (scanned12 l).add n F1Index alpha g = some (addGamma12 n F1Index alpha g l) := by
  cases l with
  | gamma1 coefficient constraintId varIdX =>
      simp [Scanned12.add, scanned12, cell_natCast]
  | gamma2 coefficient constraintId varIdX varIdY =>
      simp [Scanned12.add, scanned12, cell_natCast]

theorem add_scanned0 (alpha inputOutput : Vec) (cValue : ℤ) (l : Gamma0Line) :
    (scanned0 l).add alpha inputOutput cValue =
      some (addGamma0 alpha inputOutput cValue l) := by
  cases l with
  | io coefficient constraintId varId => simp [Scanned0.add, scanned0, cell_natCast]
  | const coefficient constraintId => simp [Scanned0.add, scanned0, cell_natCast]

/-! ## The files -/

theorem fileText_cons (line : List Char) (lines : List (List Char)) :
    fileText (line :: lines) = (line :: lines).flatMap fun line => line ++ ['\n'] := by
  induction lines generalizing line with
  | nil => simp [fileText]
  | cons line' lines ih =>
      have hrest := ih line'
      rw [fileText] at hrest
      rw [fileText, List.intercalate_cons_cons, List.append_assoc, List.append_assoc, hrest]
      simp

/-- A file of lines that fit the buffer is read line by line. -/
theorem dataPieces_fileText {lines : List (List Char)} (hne : ∀ line ∈ lines, line ≠ [])
    (hline : ∀ line ∈ lines, '\n' ∉ line) (hlen : ∀ line ∈ lines, line.length ≤ room) :
    List.Forall₂ PieceOf lines (dataPieces room (fileText lines)) := by
  cases lines with
  | nil => exact List.Forall₂.nil
  | cons line lines =>
      obtain ⟨ps, hps, hpieces⟩ := dataPieces_lines hne hline hlen []
      have hend : dataPieces room [] = [] := rfl
      rw [List.append_nil, hend, List.append_nil] at hps
      rw [fileText_cons, hps]
      exact hpieces

/-- The file of the lines for inputs, outputs and constants. -/
def gamma0File (lines : List Gamma0Line) : List Char := fileText (lines.map gamma0Text)

/-- The file of the lines for the variables. -/
def gamma12File (lines : List Gamma12Line) : List Char := fileText (lines.map gamma12Text)

theorem newline_notMem_gamma0Text (l : Gamma0Line) : '\n' ∉ gamma0Text l := by
  cases l <;> simp [gamma0Text, newline_notMem_decimal]

theorem newline_notMem_gamma12Text (l : Gamma12Line) : '\n' ∉ gamma12Text l := by
  cases l <;> simp [gamma12Text, newline_notMem_decimal]

theorem gamma0Text_ne_nil (l : Gamma0Line) : gamma0Text l ≠ [] := by
  cases l <;> simp [gamma0Text]

theorem gamma12Text_ne_nil (l : Gamma12Line) : gamma12Text l ≠ [] := by
  cases l <;> simp [gamma12Text]

theorem Gamma0Fits.length_le {l : Gamma0Line} (h : Gamma0Fits l) :
    (gamma0Text l).length ≤ room := by
  cases l with
  | io coefficient constraintId varId => exact h.2.2
  | const coefficient constraintId => exact h.2

theorem Gamma12Fits.length_le {l : Gamma12Line} (h : Gamma12Fits l) :
    (gamma12Text l).length ≤ room := by
  cases l with
  | gamma1 coefficient constraintId varIdX => exact h.2.2
  | gamma2 coefficient constraintId varIdX varIdY => exact h.2.2.2

/-- A piece of a line is scanned like the line. -/
theorem PieceOf.scanGamma12 {l : Gamma12Line} (hl : Gamma12Fits l) {piece : List Char}
    (h : PieceOf (gamma12Text l) piece) (s : Scanned12) :
    GammaFile.scanGamma12 piece s = some (scanned12 l) := by
  rcases h with rfl | rfl
  · have hnil : Delimited [] := by simp [Delimited]
    simpa using scanGamma12_text hl hnil s
  · exact scanGamma12_text hl (delimited_cons (by decide) []) s

/-- A piece of a line is scanned like the line. -/
theorem PieceOf.scanGamma0 {l : Gamma0Line} (hl : Gamma0Fits l) {piece : List Char}
    (h : PieceOf (gamma0Text l) piece) (s : Scanned0) :
    GammaFile.scanGamma0 piece s = some (scanned0 l) := by
  rcases h with rfl | rfl
  · have hnil : Delimited [] := by simp [Delimited]
    simpa using scanGamma0_text hl hnil s
  · exact scanGamma0_text hl (delimited_cons (by decide) []) s

/-- What the lines of the file for the variables add to two empty vectors. -/
def gammaVectors (n : ℕ) (F1Index : ℕ → ℕ) (alpha : Vec) (lines : List Gamma12Line) : Vec × Vec :=
  lines.foldl (addGamma12 n F1Index alpha) (zeroVec, zeroVec)

/-- What the lines of the file for inputs, outputs and constants add up to. -/
def gammaConstant (alpha inputOutput : Vec) (lines : List Gamma0Line) : ℤ :=
  lines.foldl (addGamma0 alpha inputOutput) 0

/-- The lines of the file for the variables are added one after the other. -/
theorem parseGamma12_eq (n : ℕ) (F1Index : ℕ → ℕ) (alpha : Vec) (memory : Scanned12)
    {lines : List Gamma12Line} (hfits : ∀ l ∈ lines, Gamma12Fits l) :
    parseGamma12 n F1Index alpha memory (gamma12File lines) =
      some (gammaVectors n F1Index alpha lines) := by
  have hread : ∀ (lines : List Gamma12Line) (ps : List (List Char)), (∀ l ∈ lines, Gamma12Fits l) →
      List.Forall₂ PieceOf (lines.map gamma12Text) ps → ∀ s g,
        readGamma12 n F1Index alpha s g ps = some (lines.foldl (addGamma12 n F1Index alpha) g) := by
    intro lines
    induction lines with
    | nil =>
        intro ps _ hps s g
        cases hps
        rfl
    | cons l lines ih =>
        intro ps hfits hps s g
        rw [List.map_cons] at hps
        cases hps with
        | cons hpiece hps =>
            rw [readGamma12, PieceOf.scanGamma12 (hfits l List.mem_cons_self) hpiece,
              Option.bind_some, add_scanned12, Option.bind_some,
              ih _ (fun l' h => hfits l' (List.mem_cons_of_mem _ h)) hps]
            rfl
  apply hread lines _ hfits
  exact dataPieces_fileText (List.forall_mem_map.2 fun l _ => gamma12Text_ne_nil l)
    (List.forall_mem_map.2 fun l _ => newline_notMem_gamma12Text l)
    (List.forall_mem_map.2 fun l h => (hfits l h).length_le)

/-- The lines of the file for inputs, outputs and constants are added one after the other. -/
theorem parseGamma0_eq (alpha inputOutput : Vec) (memory : Scanned0) {lines : List Gamma0Line}
    (hfits : ∀ l ∈ lines, Gamma0Fits l) :
    parseGamma0 alpha inputOutput memory (gamma0File lines) =
      some (gammaConstant alpha inputOutput lines) := by
  have hread : ∀ (lines : List Gamma0Line) (ps : List (List Char)), (∀ l ∈ lines, Gamma0Fits l) →
      List.Forall₂ PieceOf (lines.map gamma0Text) ps → ∀ s c,
        readGamma0 alpha inputOutput s c ps = some (lines.foldl (addGamma0 alpha inputOutput) c) := by
    intro lines
    induction lines with
    | nil =>
        intro ps _ hps s c
        cases hps
        rfl
    | cons l lines ih =>
        intro ps hfits hps s c
        rw [List.map_cons] at hps
        cases hps with
        | cons hpiece hps =>
            rw [readGamma0, PieceOf.scanGamma0 (hfits l List.mem_cons_self) hpiece,
              Option.bind_some, add_scanned0, Option.bind_some,
              ih _ (fun l' h => hfits l' (List.mem_cons_of_mem _ h)) hps]
            rfl
  apply hread lines _ hfits
  exact dataPieces_fileText (List.forall_mem_map.2 fun l _ => gamma0Text_ne_nil l)
    (List.forall_mem_map.2 fun l _ => newline_notMem_gamma0Text l)
    (List.forall_mem_map.2 fun l h => (hfits l h).length_le)

/-! ## The lines of a spec -/

section Spec

variable {ν : Type u} [LinearOrder ν] (D : Decls ν)

/-- The line on which a coefficient is printed, for the names of its term in the order of the
text. -/
def TermFits (constraintId : ℕ) (coefficient : ℤ) : List ν → Prop
  | [] => Gamma0Fits (.const coefficient constraintId)
  | [x] =>
      (∀ i, D.inputIndex x = some i ∨ D.outputIndex x = some i →
        Gamma0Fits (.io coefficient constraintId i)) ∧
      ∀ i, D.variableIndex x = some i → Gamma12Fits (.gamma1 coefficient constraintId i)
  | [x, y] =>
      ∀ i j, D.variableIndex x = some i → D.variableIndex y = some j →
        Gamma12Fits (.gamma2 coefficient constraintId i j)
  | _ => True

/-- Every coefficient of every constraint is printed on a line that fits. -/
def SpecFits (spec : List (Text ν)) : Prop :=
  ∀ k line, spec[k]? = some line → ∀ m ∈ (symbolic line).support,
    TermFits D k (MvPolynomial.coeff m (symbolic line)) (Finsupp.toMultiset m).sort

/-- The lines of one constraint fit. -/
def ParsedFits (constraintId : ℕ) (q : Parsed) : Prop :=
  (∀ l ∈ q.gamma0 constraintId, Gamma0Fits l) ∧ ∀ l ∈ q.gamma12 constraintId, Gamma12Fits l

variable {D}

/-- The names of a term stand in order. -/
theorem sort_factors {t : Term ν} (ht : t.factors.Pairwise (· ≤ ·)) :
    (Finsupp.toMultiset (Multiset.toFinsupp (t.factors : Multiset ν))).sort = t.factors := by
  rw [Multiset.toFinsupp_toMultiset]
  apply List.Perm.eq_of_pairwise' (Multiset.pairwise_sort _ _) ht
  exact Multiset.coe_eq_coe.1 (Multiset.sort_eq _ _)

/-- A term whose line fits is sorted into lines that fit. -/
theorem parseTerm_fits {constraintId : ℕ} {t : Term ν} (ht : t.Proper) {acc q : Parsed}
    (hq : parseTerm D false t acc = some q) (hfits : TermFits D constraintId t.coeff t.factors)
    (hacc : ParsedFits constraintId acc) : ParsedFits constraintId q := by
  obtain ⟨const, factors⟩ := t
  obtain ⟨c, rfl, -⟩ := ht
  have hcoeff : Term.coeff (⟨some c, factors⟩ : Term ν) = c := rfl
  rw [hcoeff] at hfits
  obtain ⟨h0, h12⟩ := hacc
  simp only [Parsed.gamma0, Parsed.gamma12, List.forall_mem_append, List.forall_mem_map] at h0 h12
  simp only [parseTerm, signedCoeff, Option.bind_some, Bool.false_eq_true, ↓reduceIte] at hq
  simp only [ParsedFits, Parsed.gamma0, Parsed.gamma12, List.forall_mem_append, List.forall_mem_map]
  rcases factors with _ | ⟨x, _ | ⟨y, _ | ⟨z, rest⟩⟩⟩
  · cases hq
    simp only [List.forall_mem_append, List.forall_mem_singleton]
    exact ⟨⟨h0.1, h0.2, hfits⟩, h12⟩
  · -- the three lists are searched in the order of the code
    cases hin : D.inputIndex x with
    | some i =>
        simp only [hin, Option.some.injEq] at hq
        subst hq
        simp only [List.forall_mem_append, List.forall_mem_singleton]
        exact ⟨⟨⟨h0.1, hfits.1 i (Or.inl hin)⟩, h0.2⟩, h12⟩
    | none =>
        cases hout : D.outputIndex x with
        | some i =>
            simp only [hin, hout, Option.some.injEq] at hq
            subst hq
            simp only [List.forall_mem_append, List.forall_mem_singleton]
            exact ⟨⟨⟨h0.1, hfits.1 i (Or.inr hout)⟩, h0.2⟩, h12⟩
        | none =>
            simp only [hin, hout] at hq
            obtain ⟨i, hi, rfl⟩ := Option.map_eq_some_iff.1 hq
            simp only [List.forall_mem_append, List.forall_mem_singleton]
            exact ⟨h0, ⟨h12.1, hfits.2 i hi⟩, h12.2⟩
  · obtain ⟨i, hi, hq⟩ := Option.bind_eq_some_iff.1 hq
    obtain ⟨j, hj, rfl⟩ := Option.map_eq_some_iff.1 hq
    simp only [List.forall_mem_append, List.forall_mem_singleton]
    exact ⟨h0, h12.1, h12.2, hfits i j hi hj⟩
  · cases hq

/-- The loop over the words of an expanded line whose terms fit. -/
theorem parseWords_fits {constraintId : ℕ} (terms : List (Term ν))
    (hterms : ∀ t ∈ terms, t.Proper ∧ TermFits D constraintId t.coeff t.factors)
    {acc q : Parsed} {begun : Bool}
    (hq : parseWords D begun false acc (expandPolynomialStr terms) = some q)
    (hacc : ParsedFits constraintId acc) : ParsedFits constraintId q := by
  induction terms generalizing acc begun with
  | nil => cases hq
  | cons t ts ih =>
      obtain ⟨hproper, hfits⟩ := hterms t List.mem_cons_self
      cases ts with
      | nil =>
          obtain ⟨acc', hacc', hq⟩ := Option.bind_eq_some_iff.1 hq
          cases hq
          exact parseTerm_fits hproper hacc' hfits hacc
      | cons t' ts =>
          obtain ⟨acc', hacc', hq⟩ := Option.bind_eq_some_iff.1 hq
          exact ih (fun t'' h => hterms t'' (List.mem_cons_of_mem _ h)) hq
            (parseTerm_fits hproper hacc' hfits hacc)

/-- The lines of a constraint whose coefficients fit. -/
theorem parseLine_fits {constraintId : ℕ} {line : Text ν} (hread : Readable false [] line)
    (hfits : ∀ m ∈ (symbolic line).support,
      TermFits D constraintId (MvPolynomial.coeff m (symbolic line)) (Finsupp.toMultiset m).sort)
    {q : Parsed} (hq : parseLine D line = some q) : ParsedFits constraintId q := by
  obtain ⟨terms, hexpand, hcan, hvalue⟩ := expandPolynomial_eq line hread []
  simp only [parseLine, expandBasicConstraint, hexpand, Option.map_some, Option.bind_some] at hq
  refine parseWords_fits terms (fun t ht => ⟨hcan.proper t ht, ?_⟩) hq ⟨by simp [Parsed.gamma0],
    by simp [Parsed.gamma12]⟩
  -- the term is a monomial of what the line stands for
  have hmem := hcan.mem_support ht
  have hcoeff := hcan.coeff_mem ht
  rw [hvalue] at hmem hcoeff
  have hline := hfits _ hmem
  rwa [hcoeff, sort_factors (hcan.sorted t ht)] at hline

/-- The lines of a spec whose coefficients fit. -/
theorem generateFrom_fits {spec : List (Text ν)} (hread : ∀ line ∈ spec, Readable false [] line)
    {constraintId : ℕ}
    (hfits : ∀ k line, spec[k]? = some line → ∀ m ∈ (symbolic line).support,
      TermFits D (constraintId + k) (MvPolynomial.coeff m (symbolic line))
        (Finsupp.toMultiset m).sort)
    {g0 : List Gamma0Line} {g12 : List Gamma12Line}
    (h0 : generateFrom D Parsed.gamma0 constraintId spec = some g0)
    (h12 : generateFrom D Parsed.gamma12 constraintId spec = some g12) :
    (∀ l ∈ g0, Gamma0Fits l) ∧ ∀ l ∈ g12, Gamma12Fits l := by
  induction spec generalizing constraintId g0 g12 with
  | nil =>
      cases h0
      cases h12
      exact ⟨by simp, by simp⟩
  | cons line spec ih =>
      obtain ⟨q, hq, h0⟩ := Option.bind_eq_some_iff.1 h0
      obtain ⟨q', hq', h12⟩ := Option.bind_eq_some_iff.1 h12
      obtain rfl : q = q' := Option.some.inj (hq.symm.trans hq')
      obtain ⟨r0, hr0, rfl⟩ := Option.map_eq_some_iff.1 h0
      obtain ⟨r12, hr12, rfl⟩ := Option.map_eq_some_iff.1 h12
      have hhead := parseLine_fits (hread line List.mem_cons_self)
        (by simpa using hfits 0 line rfl) hq
      have hrest := ih (fun l h => hread l (List.mem_cons_of_mem _ h)) (fun k l hk => by
        simpa [Nat.add_assoc, Nat.add_comm 1 k] using hfits (k + 1) l (by simpa using hk)) hr0 hr12
      exact ⟨List.forall_mem_append.2 ⟨hhead.1, hrest.1⟩,
        List.forall_mem_append.2 ⟨hhead.2, hrest.2⟩⟩

/-- A line whose expansion is known fits if the lines of its terms do. -/
theorem support_fits_of_canonical {constraintId : ℕ} {line : Text ν} {e : List (Term ν)}
    (he : Canonical e) (hvalue : symbolic line = termsValue MvPolynomial.X e)
    (hfits : ∀ t ∈ e, TermFits D constraintId t.coeff t.factors) :
    ∀ m ∈ (symbolic line).support,
      TermFits D constraintId (MvPolynomial.coeff m (symbolic line))
        (Finsupp.toMultiset m).sort := by
  intro m hm
  rw [hvalue] at hm
  obtain ⟨t, ht, rfl⟩ := exists_mem_of_support hm
  rw [hvalue, he.coeff_mem ht, sort_factors (he.sorted t ht)]
  exact hfits t ht

end Spec

end Pepper.Libv.GammaFile
