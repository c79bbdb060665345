import Pepper.Libv.QuadraticProgram
import Pepper.Libv.Roots

/-!
# Query creation

The routines of `Venezia` that both parties run: linearity queries and the
divisibility queries at a random point. A caller that passes no coins and no
consistency query (the prover) leaves the private stream alone; the public stream
advances the same way for both.

`divQueriesAt` and `evaluatePolynomialAt` are the parts that depend on the drawn
point only.
-/

set_option autoImplicit false

open Pepper.Common.Gmp Pepper.Foundations.Loop Pepper.Libv.QuadraticProgram Pepper.Libv.Roots

namespace Pepper.Libv.Queries

variable {P : Prng}

/-! ## Random draws -/

/-- The public and the private stream of a `Crypto` object. -/
structure Crypto (P : Prng) where
  pub : P.State
  priv : P.State

/-- `get_random_pub`. -/
def Crypto.getRandomPub (c : Crypto P) (n : ℤ) : ℤ × Crypto P :=
  ((P.getRandom c.pub n).1, { c with pub := (P.getRandom c.pub n).2 })

/-- `get_random_priv`. -/
def Crypto.getRandomPriv (c : Crypto P) (n : ℤ) : ℤ × Crypto P :=
  ((P.getRandom c.priv n).1, { c with priv := (P.getRandom c.priv n).2 })

/-- Private draws into `coins[filled + 1]`, ..., `coins[filled + count]`. -/
def drawCoins (count : ℕ) (filled prime : ℤ) (crypto : Crypto P) (coins : Vec) :
    Crypto P × Vec :=
  forLoop count
    (fun k s =>
      ((s.1.getRandomPriv prime).2,
        Function.update s.2 (filled + (k + 1)).toNat (s.1.getRandomPriv prime).1))
    (crypto, coins)

/-- `update_con_query`: no reduction, the consistency query is an integer vector. -/
def updateConQuery (con beta q : ℤ) : ℤ := con + beta * q

/-- `dot_product`, an integer. -/
def dotProduct (size : ℕ) (q d : Vec) : ℤ := forLoop size (fun i output => output + d i * q i) 0

/-! ## Linearity queries -/

/-- State of the loop of `create_lin_test_queries`. -/
structure LinState (P : Prng) where
  crypto : Crypto P
  l1 : Vec
  l2 : Vec
  con : Option Vec

/-- One pass: both queries get a public draw; the third query is their sum and is
never formed, its coin is part of `temp1` and `temp2`. -/
def linPass (prime temp1 temp2 : ℤ) (i : ℕ) (s : LinState P) : LinState P :=
  let d1 := s.crypto.getRandomPub prime
  let d2 := d1.2.getRandomPub prime
  { crypto := d2.2
    l1 := Function.update s.l1 i d1.1
    l2 := Function.update s.l2 i d2.1
    con := s.con.map fun con =>
      Function.update con i (updateConQuery (updateConQuery (con i) temp1 d1.1) temp2 d2.1) }

/-- `create_lin_test_queries`, with the coin array next to the resulting state. -/
def createLinTestQueries (size : ℕ) (crypto : Crypto P) (l1 l2 : Vec) (con : Option Vec)
    (filled : ℤ) (conCoins : Option Vec) (prime : ℤ) : LinState P × Option Vec :=
  match conCoins with
  | none => (forLoop size (linPass prime 0 0) ⟨crypto, l1, l2, con⟩, none)
  | some coins =>
      let drawn := drawCoins 3 filled prime crypto coins
      let temp1 := drawn.2 (filled + 1).toNat + drawn.2 (filled + 3).toNat
      let temp2 := drawn.2 (filled + 2).toNat + drawn.2 (filled + 3).toNat
      (forLoop size (linPass prime temp1 temp2) ⟨drawn.1, l1, l2, con⟩, some drawn.2)

/-! ## Evaluation at a point -/

/-- What both parties hold before any query: the program, the prime, the powers of the
root of unity and the barycentric weights. -/
structure Setup where
  qap : Qap
  prime : ℤ
  powersOfOmega : Vec
  setV : Vec

/-- The tables that `generate_root_of_unity` and `compute_set_v` leave for `omega`. -/
def Setup.init (q : Qap) (omega prime : ℤ) : Setup where
  qap := q
  prime := prime
  powersOfOmega := Roots.powersOfOmega q.sizeF2Vec omega prime
  setV := computeSetV q.sizeF2Vec (Roots.powersOfOmega q.sizeF2Vec omega prime) prime

/-- `l(tau)`, the product over all nodes; hitting a node ends the program. -/
def evalLTau (s : Setup) (tau : ℤ) : Option ℤ :=
  forLoop s.qap.sizeF2Vec
    (fun i acc => acc.bind fun lTau =>
      if tau - s.powersOfOmega i = 0 then none
      else some (lTau * (tau - s.powersOfOmega i) % s.prime))
    (some 1)

/-- The barycentric term of one entry, added into the cell of its wire. -/
def addEntry (s : Setup) (tau : ℤ) (evalPoly : Vec) (e : PolyCompressed) : Vec :=
  let temp := s.setV e.j * e.coefficient % s.prime
  let temp2 := tau - s.powersOfOmega e.j
  let temp2 := mpzInvert temp2 temp2 s.prime
  Function.update evalPoly e.i ((evalPoly e.i + temp * temp2) % s.prime)

/-- Evaluations of the wire polynomials of one matrix: all entries, then the factor
`l(tau)`. -/
def evalMatrix (s : Setup) (tau lTau : ℤ) (poly : List PolyCompressed) (evalPoly : Vec) : Vec :=
  forLoop (s.qap.n + 1) (fun i v => Function.update v i (v i * lTau % s.prime))
    (poly.foldl (addEntry s tau) evalPoly)

/-- What `evaluate_polynomial_at_random_point` computes from the point. -/
structure PolyEval where
  dStar : ℤ
  evalPolyA : Vec
  evalPolyB : Vec
  evalPolyC : Vec

/-- The evaluation at `tau`, on cleared blocks. -/
def evaluatePolynomialAt (s : Setup) (tau : ℤ) : Option PolyEval :=
  (evalLTau s tau).map fun lTau =>
    { dStar := mpzInvert 0 (tau - 1) s.prime * lTau % s.prime
      evalPolyA := evalMatrix s tau lTau s.qap.polyA zeroVec
      evalPolyB := evalMatrix s tau lTau s.qap.polyB zeroVec
      evalPolyC := evalMatrix s tau lTau s.qap.polyC zeroVec }

/-! ## Divisibility queries -/

/-- The four queries of the divisibility test. -/
structure DivQueries where
  f1Q1 : Vec
  f1Q2 : Vec
  f1Q3 : Vec
  f2Q1 : Vec

/-- `q[i] = eval[i + 1] + corr[i] mod prime`. -/
def selfCorrect (size : ℕ) (prime : ℤ) (eval corr q : Vec) : Vec :=
  forLoop size (fun i v => Function.update v i ((eval (i + 1) + corr i) % prime)) q

/-- The powers of `tau`, each reduced. -/
def powersOfTau (size : ℕ) (tau prime : ℤ) (q : Vec) : Vec :=
  forLoop size
    (fun i v => Function.update v i (if i > 0 then v (i - 1) * tau % prime else 1)) q

/-- The queries at `tau`, self-corrected by `corrQ` and `corrQ2`; `old` is what the
query blocks held. -/
def divQueriesAt (s : Setup) (tau : ℤ) (ev : PolyEval) (corrQ corrQ2 : Vec) (old : DivQueries) :
    DivQueries where
  f1Q1 := selfCorrect s.qap.sizeF1Vec s.prime ev.evalPolyA corrQ old.f1Q1
  f1Q2 := selfCorrect s.qap.sizeF1Vec s.prime ev.evalPolyB corrQ old.f1Q2
  f1Q3 := selfCorrect s.qap.sizeF1Vec s.prime ev.evalPolyC corrQ old.f1Q3
  f2Q1 := forLoop s.qap.sizeF2Vec
    (fun i v => Function.update v i ((v i + corrQ2 i) % s.prime))
    (powersOfTau s.qap.sizeF2Vec tau s.prime old.f2Q1)

/-- The verifier's part of a test: the coin array, which both proof vectors share, and
the two consistency queries. -/
structure ConState where
  coins : Vec
  con1 : Vec
  con2 : Vec

/-- The four queries enter the consistency queries with the coins at `fill1 + 1`,
`fill1 + 2`, `fill1 + 3` and `fill2 + 1`. -/
def addDivQueries (s : Setup) (fill1 fill2 : ℤ) (qs : DivQueries) (c : ConState) : ConState where
  coins := c.coins
  con1 := forLoop s.qap.sizeF1Vec
    (fun i con => Function.update con i
      (updateConQuery
        (updateConQuery (updateConQuery (con i) (c.coins (fill1 + 1).toNat) (qs.f1Q1 i))
          (c.coins (fill1 + 2).toNat) (qs.f1Q2 i))
        (c.coins (fill1 + 3).toNat) (qs.f1Q3 i)))
    c.con1
  con2 := forLoop s.qap.sizeF2Vec
    (fun i con => Function.update con i
      (updateConQuery (con i) (c.coins (fill2 + 1).toNat) (qs.f2Q1 i)))
    c.con2

/-- Outcome of `create_div_corr_test_queries`. -/
structure DivState (P : Prng) where
  crypto : Crypto P
  con : Option ConState
  queries : DivQueries
  eval : PolyEval

/-- The coins of the four queries, drawn when there is a coin array. -/
def drawDivCoins (prime fill1 fill2 : ℤ) (crypto : Crypto P) :
    Option ConState → Crypto P × Option ConState
  | none => (crypto, none)
  | some c =>
      let d1 := drawCoins 3 fill1 prime crypto c.coins
      let d2 := drawCoins 1 fill2 prime d1.1 d1.2
      (d2.1, some { c with coins := d2.2 })

/-- `create_div_corr_test_queries`: coins from the private stream, the point from the
public stream, then evaluation, queries and consistency update. -/
def createDivCorrTestQueries (s : Setup) (crypto : Crypto P) (con : Option ConState)
    (fill1 fill2 : ℤ) (corrQ corrQ2 : Vec) (old : DivQueries) : Option (DivState P) :=
  let drawn := drawDivCoins s.prime fill1 fill2 crypto con
  let d := drawn.1.getRandomPub s.prime
  (evaluatePolynomialAt s d.1).map fun ev =>
    let qs := divQueriesAt s d.1 ev corrQ corrQ2 old
    { crypto := d.2
      con := drawn.2.map (addDivQueries s fill1 fill2 qs)
      queries := qs
      eval := ev }

/-! ## First facts -/

theorem drawCoins_pub (count : ℕ) (filled prime : ℤ) (crypto : Crypto P) (coins : Vec) :
    (drawCoins count filled prime crypto coins).1.pub = crypto.pub :=
  forLoop_frame (fun s : Crypto P × Vec => s.1.pub) fun _ _ _ => rfl

theorem drawDivCoins_pub (prime fill1 fill2 : ℤ) (crypto : Crypto P) (con : Option ConState) :
    (drawDivCoins prime fill1 fill2 crypto con).1.pub = crypto.pub := by
  cases con with
  | none => rfl
  | some c => rw [drawDivCoins, drawCoins_pub, drawCoins_pub]

/-- The point a run draws: coins come from the other stream. -/
def drawnTau (crypto : Crypto P) (prime : ℤ) : ℤ := (P.getRandom crypto.pub prime).1

/-- Query creation in terms of the point that is drawn. -/
theorem createDivCorrTestQueries_eq (s : Setup) (crypto : Crypto P) (con : Option ConState)
    (fill1 fill2 : ℤ) (corrQ corrQ2 : Vec) (old : DivQueries) :
    createDivCorrTestQueries s crypto con fill1 fill2 corrQ corrQ2 old =
      (evaluatePolynomialAt s (drawnTau crypto s.prime)).map fun ev =>
        { crypto := ⟨(P.getRandom crypto.pub s.prime).2,
            (drawDivCoins s.prime fill1 fill2 crypto con).1.priv⟩
          con := (drawDivCoins s.prime fill1 fill2 crypto con).2.map
            (addDivQueries s fill1 fill2
              (divQueriesAt s (drawnTau crypto s.prime) ev corrQ corrQ2 old))
          queries := divQueriesAt s (drawnTau crypto s.prime) ev corrQ corrQ2 old
          eval := ev } := by
  rw [createDivCorrTestQueries, drawnTau, Crypto.getRandomPub, drawDivCoins_pub]

theorem dotProduct_eq_sum (size : ℕ) (q d : Vec) :
    dotProduct size q d = ∑ i ∈ Finset.range size, d i * q i := by
  rw [dotProduct, forLoop_add, zero_add]

theorem divQueriesAt_f2Q1_apply (s : Setup) (tau : ℤ) (ev : PolyEval) (corrQ corrQ2 : Vec)
    (old : DivQueries) {i : ℕ} (hi : i < s.qap.sizeF2Vec) :
    (divQueriesAt s tau ev corrQ corrQ2 old).f2Q1 i =
      (powersOfTau s.qap.sizeF2Vec tau s.prime old.f2Q1 i + corrQ2 i) % s.prime := by
  rw [divQueriesAt]
  exact (forLoop_update_apply _ (fun i x => (x + corrQ2 i) % s.prime) _ i).trans (if_pos hi)

end Pepper.Libv.Queries
