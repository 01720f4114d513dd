import Mathlib
import PacketFec.Proofs.GroupShards

/-!
# The matrix of the code

The code is linear: each parity shard is, byte position by byte position, a row of a fixed matrix times the data
shards. The matrix is that of the powers of the points of all shards, times the inverse of its part that belongs to the
data. It maps the values of a polynomial of small degree at the points of the data to its coefficients, and these to its
values at all points. So its first rows are those of the identity, and the data shards of a group are sent as they are.

* `Code.matrix`: the matrix.
* `Code.matrix_data`: **its first rows leave the data as it is.**
* `Code.mulVec_matrix`: **it maps the data shards of a group to all its shards.**
* `symbol_parityBody`: the parity of packets of unequal lengths, as rows of the matrix.
-/

namespace PacketFec

namespace Geometry

/-- The place of a data shard among all shards of its group. -/
def dataPlace (g : Geometry) (p : Fin g.data) : Fin g.total := ⟨p, lt_of_lt_of_le p.2 (Nat.le_add_right _ _)⟩

/-- The place of a parity shard among all shards of its group. -/
def parityPlace (g : Geometry) (k : Fin g.parity) : Fin g.total := ⟨g.data + k, Nat.add_lt_add_left k.2 _⟩

end Geometry

namespace Code

open Matrix Polynomial

/-- The element at which a shard stands. -/
def node (position : ℕ) : Element := ⟨point position⟩

/-- The powers of the points of all shards of a group. -/
def powers (g : Geometry) : Matrix (Fin g.total) (Fin g.data) Element := .of fun p j => node p ^ (j : ℕ)

/-- The powers of the points of its data shards. -/
def dataPowers (g : Geometry) : Matrix (Fin g.data) (Fin g.data) Element := vandermonde fun p => node p

/-- **The matrix of the code.** -/
noncomputable def matrix (g : Geometry) : Matrix (Fin g.total) (Fin g.data) Element :=
  powers g * (dataPowers g)⁻¹

variable {g : Geometry} {data : List Bytes} {width : ℕ}

theorem isUnit_det_dataPowers (hg : g.Valid) : IsUnit (dataPowers g).det := by
  have hle := hg.total_le
  rw [maxGroupSize] at hle
  refine isUnit_iff_ne_zero.2 (det_vandermonde_ne_zero_iff.2 ?_)
  intro p q h
  exact Fin.ext (node_injOn (n := g.data) (by omega) (by simp) (by simp) h)

/-- **The first rows of the matrix leave the data as it is.** -/
theorem matrix_data (hg : g.Valid) : (matrix g).submatrix g.dataPlace id = 1 := by
  have htop : (powers g).submatrix g.dataPlace id = dataPowers g := rfl
  rw [matrix, submatrix_mul _ _ g.dataPlace id id Function.bijective_id, htop, submatrix_id_id]
  exact mul_nonsing_inv _ (isUnit_det_dataPowers hg)

/-- The powers of a point times the coefficients of a polynomial of small degree are its value there. -/
theorem sum_powers_coeff {n : ℕ} {f : Element[X]} (hdeg : f.degree < n) (x : Element) :
    ∑ j : Fin n, x ^ (j : ℕ) * f.coeff j = f.eval x := by
  by_cases hzero : f = 0
  · simp [hzero]
  · rw [eval_eq_sum_range' ((natDegree_lt_iff_degree_lt hzero).2 hdeg), Finset.sum_range]
    exact Finset.sum_congr rfl fun j _ => mul_comm _ _

/-- **The matrix maps the data shards of a group to all its shards**, in each byte position. -/
theorem mulVec_matrix (hg : g.Valid) (hlen : data.length = g.data) (hw : ∀ s ∈ data, s.length = width) {i : ℕ}
    (hi : i < width) (p : Fin g.total) :
    (matrix g *ᵥ fun j => symbol (data.getD j []) i) p = symbol (codeword g width data p) i := by
  have hle := hg.total_le
  rw [maxGroupSize] at hle
  have hn : data.length ≤ 256 := by omega
  have hdeg : (polynomial data i).degree < g.data := hlen ▸ degree_polynomial_lt hn i
  -- the inverse gives back the coefficients of the polynomial
  have hvalues : dataPowers g *ᵥ (fun j => (polynomial data i).coeff j) =
      fun j : Fin g.data => symbol (data.getD j []) i := by
    funext j
    calc ∑ k : Fin g.data, node j ^ (k : ℕ) * (polynomial data i).coeff k
        = (polynomial data i).eval (node j) := sum_powers_coeff hdeg _
      _ = symbol (data.getD j []) i := eval_polynomial hn i (by rw [hlen]; exact j.2)
  calc (matrix g *ᵥ fun j => symbol (data.getD j []) i) p
      = (powers g *ᵥ fun j => (polynomial data i).coeff j) p := by
        rw [← hvalues, matrix, ← mulVec_mulVec, mulVec_mulVec _ (dataPowers g)⁻¹,
          nonsing_inv_mul _ (isUnit_det_dataPowers hg), one_mulVec]
    _ = (polynomial data i).eval (node p) := sum_powers_coeff hdeg _
    _ = symbol (codeword g width data p) i := (symbol_codeword hlen hw hg hi p).symm

end Code

variable {g : Geometry} {bodies : List Bytes}

open Code Matrix

/-- A body that is filled up has zeros behind its end, where it had no bytes. -/
theorem Code.symbol_resize {body : Bytes} {n : ℕ} (h : body.length ≤ n) (i : ℕ) :
    symbol (body.resize n 0) i = symbol body i := by
  have hzero : ((List.replicate (n - body.length) (0 : UInt8))[i - body.length]?).getD 0 = 0 := by
    rw [List.getElem?_replicate]
    split <;> rfl
  rw [Bytes.resize, List.take_of_length_le h, symbol, symbol, List.getD_eq_getElem?_getD,
    List.getD_eq_getElem?_getD, List.getElem?_append]
  split
  · rfl
  · rw [hzero, List.getElem?_eq_none (by omega), Option.getD_none]

theorem Code.symbol_of_length_le {body : Bytes} {i : ℕ} (h : body.length ≤ i) : symbol body i = 0 := by
  rw [symbol, List.getD_eq_default _ _ h]
  rfl

/-- **The parity of packets of any lengths**: rows of the matrix times their bodies, each with zeros behind its end. -/
theorem symbol_parityBody (hg : g.Valid) (hlen : bodies.length = g.data) (k : Fin g.parity) (i : ℕ) :
    symbol (parityBody g bodies (g.data + k)) i =
      ∑ j : Fin g.data, matrix g (g.parityPlace k) j * symbol (bodies.getD j []) i := by
  have hbody : ∀ j : Fin g.data, symbol ((evened bodies).getD j []) i = symbol (bodies.getD j []) i := by
    intro j
    have hj : (j : ℕ) < bodies.length := by rw [hlen]; exact j.2
    rw [List.getD_eq_getElem _ _ hj, List.getD_eq_getElem _ _ (by simpa using hj)]
    simp only [evened, List.getElem_map]
    exact symbol_resize (length_le_width (List.getElem_mem hj)) i
  by_cases hi : i < width bodies
  · calc symbol (parityBody g bodies (g.data + k)) i
        = (matrix g *ᵥ fun j : Fin g.data => symbol ((evened bodies).getD j []) i) (g.parityPlace k) :=
          (mulVec_matrix hg (by simpa using hlen) (fun _ hs => length_of_mem_evened hs) hi (g.parityPlace k)).symm
      _ = (matrix g *ᵥ fun j : Fin g.data => symbol (bodies.getD j []) i) (g.parityPlace k) := by
          rw [funext hbody]
  · -- behind the longest body there is nothing
    rw [symbol_of_length_le (by rw [length_parityBody hlen]; omega)]
    refine (Finset.sum_eq_zero fun j _ => ?_).symm
    have hle := length_getD_le_width bodies j
    rw [symbol_of_length_le (by omega), mul_zero]

end PacketFec
