import Mathlib.LinearAlgebra.Matrix.Notation
import SystemsLabs.Memory.Loops

/-!
# trans.c

The transpose functions. They read an array `A[N][M]` and write another one, `B[M][N]`, which is
the state that they run on. An access to an element that the array does not have goes wrong, and
so does the use of a local variable that has not been set, and a contract that does not hold.
-/

namespace SystemsLabs
namespace Cachelab

open Memory

variable {M N : ℕ}

/-- The array `B` while the functions run. -/
abbrev Dest (M N : ℕ) : Type := Matrix (Fin M) (Fin N) ℤ

/-- `A[i][j]`. -/
def readA (A : Matrix (Fin N) (Fin M) ℤ) (i j : ℕ) : Prog (Dest M N) ℤ := fun B =>
  if h : i < N ∧ j < M then some (A ⟨i, h.1⟩ ⟨j, h.2⟩, B) else none

/-- `B[j][i]`. -/
def readB (j i : ℕ) : Prog (Dest M N) ℤ := fun B =>
  if h : j < M ∧ i < N then some (B ⟨j, h.1⟩ ⟨i, h.2⟩, B) else none

/-- The array with one element set. -/
def setElem (B : Dest M N) (j i : ℕ) (v : ℤ) : Dest M N := fun j' i' =>
  if j'.val = j ∧ i'.val = i then v else B j' i'

/-- `B[j][i] = v`. -/
def writeB (j i : ℕ) (v : ℤ) : Prog (Dest M N) Unit := fun B =>
  if j < M ∧ i < N then some ((), setElem B j i v) else none

/-! ## is_transpose -/

/-- `is_transpose(M, N, A, B)`. -/
def isTranspose (A : Matrix (Fin N) (Fin M) ℤ) : Prog (Dest M N) ℤ := do
  let found ← searchLoop N (fun i =>
    searchLoop M (fun j => do
      let a ← readA A i j
      let b ← readB j i
      pure (if a ≠ b then some 0 else none)) 0) 0
  pure (found.getD 1)

/-! ## transpose_submit -/

/-- The locals `temp` and `temp3` in the blocks of the first loop nest. -/
structure Temps where
  temp : Option ℤ
  temp3 : Option ℕ

/-- A row `i` of the block at `(ii, jj)`. -/
def blockRow (A : Matrix (Fin N) (Fin M) ℤ) (temp2 ii jj i : ℕ) (t : Temps) :
    Prog (Dest M N) Temps := do
  let t ← forLoop (min (jj + temp2) M) 1 (fun j t =>
    if i ≠ j then do
      let v ← readA A i j
      writeB j i v
      pure t
    else do
      let v ← readA A i j
      pure ⟨some v, some i⟩) jj t
  runIf (ii = jj) do
    let temp3 ← value t.temp3
    let temp ← value t.temp
    writeB temp3 temp3 temp
  pure t

/-- The loop nest for 32 and for 61 columns, in blocks of `temp1` rows and `temp2` columns. -/
def transposeDiagonal (A : Matrix (Fin N) (Fin M) ℤ) (temp1 temp2 : ℕ) :
    Prog (Dest M N) Unit := do
  let _ ← forLoop N temp1 (fun ii =>
    forLoop M temp2 (fun jj =>
      forLoop (min (ii + temp1) N) 1 (blockRow A temp2 ii jj) ii) 0) 0 ⟨none, none⟩
  pure ()

/-- The first loop over the rows of a block, for its left half. It leaves `temp7`. -/
def leftHalf (A : Matrix (Fin N) (Fin M) ℤ) (ii jj : ℕ) (temp7 : Option ℤ) :
    Prog (Dest M N) (Option ℤ) :=
  forLoop 8 1 (fun i _ => do
    let temp4 ← readA A (ii + i) jj
    let temp5 ← readA A (ii + i) (jj + 1)
    let temp6 ← readA A (ii + i) (jj + 2)
    let temp7 ← readA A (ii + i) (jj + 3)
    writeB jj (ii + i) temp4
    writeB (jj + 1) (ii + i) temp5
    writeB (jj + 2) (ii + i) temp6
    writeB (jj + 3) (ii + i) temp7
    pure (some temp7)) 0 temp7

/-- The second loop, for the right half but its first row. -/
def rightHalf (A : Matrix (Fin N) (Fin M) ℤ) (ii jj : ℕ) (temp7 : Option ℤ) :
    Prog (Dest M N) (Option ℤ) :=
  forLoop 8 1 (fun i temp7 => do
    let temp4 ← readA A (ii + i) (jj + 4)
    let temp5 ← readA A (ii + i) (jj + 5)
    let temp6 ← readA A (ii + i) (jj + 6)
    let temp7 ← if i ≠ 1 then some <$> readA A (ii + i) (jj + 7) else pure temp7
    writeB (jj + 4) (ii + i) temp4
    writeB (jj + 5) (ii + i) temp5
    writeB (jj + 6) (ii + i) temp6
    runIf (i ≠ 1) do
      let v ← value temp7
      writeB (jj + 7) (ii + i) v
    pure temp7) 1 temp7

/-- An 8 by 8 block for 64 columns. Five elements wait in `temp` to `temp3` and `j`. -/
def block8 (A : Matrix (Fin N) (Fin M) ℤ) (ii jj : ℕ) (temp7 : Option ℤ) :
    Prog (Dest M N) (Option ℤ) := do
  let temp ← readA A ii (jj + 4)
  let temp1 ← readA A ii (jj + 5)
  let temp2 ← readA A ii (jj + 6)
  let temp3 ← readA A ii (jj + 7)
  let j ← readA A (ii + 1) (jj + 7)
  let temp7 ← leftHalf A ii jj temp7
  let temp7 ← rightHalf A ii jj temp7
  writeB (jj + 4) ii temp
  writeB (jj + 5) ii temp1
  writeB (jj + 6) ii temp2
  writeB (jj + 7) ii temp3
  writeB (jj + 7) (ii + 1) j
  pure temp7

/-- The loop nest for 64 columns. -/
def transpose8 (A : Matrix (Fin N) (Fin M) ℤ) : Prog (Dest M N) Unit := do
  let _ ← forLoop N 8 (fun ii => forLoop M 8 (fun jj => block8 A ii jj) 0) 0 none
  pure ()

/-- `temp1` and `temp2`, which are set for two shapes only. -/
def blockSize (M N : ℕ) : Option (ℕ × ℕ) :=
  if M = 32 ∧ N = 32 then some (8, 8)
  else if M = 61 ∧ N = 67 then some (16, 16)
  else none

/-- `transpose_submit(M, N, A, B)`. -/
def transposeSubmit (A : Matrix (Fin N) (Fin M) ℤ) : Prog (Dest M N) Unit := do
  check (M > 0)
  check (N > 0)
  (if M = 32 ∨ M = 61 then do
    let size ← value (blockSize M N)
    transposeDiagonal A size.1 size.2
  else runIf (M = 64) (transpose8 A))
  let ok ← isTranspose A
  check (ok ≠ 0)

/-! ## trans -/

/-- `trans(M, N, A, B)`. -/
def trans (A : Matrix (Fin N) (Fin M) ℤ) : Prog (Dest M N) Unit := do
  check (M > 0)
  check (N > 0)
  forLoop M 1 (fun i =>
    forLoop N 1 (fun j _ => do
      let v ← readA A i j
      writeB j i v) 0) 0 ()
  let ok ← isTranspose A
  check (ok ≠ 0)

/-! ## Elements that are done -/

section Done
variable {A : Matrix (Fin N) (Fin M) ℤ} {B : Dest M N} {i j : ℕ}

@[simp] lemma wp_readA (Q : ℤ → Dest M N → Prop) :
    wp (readA A i j) Q B ↔ ∃ (hi : i < N) (hj : j < M), Q (A ⟨i, hi⟩ ⟨j, hj⟩) B := by
  have hright : ∀ h : i < N ∧ j < M, (readA A i j).run B = some (A ⟨i, h.1⟩ ⟨j, h.2⟩, B) :=
    fun h => dif_pos h
  rw [wp_access hright fun h => dif_neg h]
  exact And.exists

@[simp] lemma wp_readB (Q : ℤ → Dest M N → Prop) :
    wp (readB j i) Q B ↔ ∃ (hj : j < M) (hi : i < N), Q (B ⟨j, hj⟩ ⟨i, hi⟩) B := by
  have hright : ∀ h : j < M ∧ i < N, (readB j i).run B = some (B ⟨j, h.1⟩ ⟨i, h.2⟩, B) :=
    fun h => dif_pos h
  rw [wp_access hright fun h => dif_neg h]
  exact And.exists

@[simp] lemma wp_writeB (v : ℤ) (Q : Unit → Dest M N → Prop) :
    wp (writeB j i v) Q B ↔ (j < M ∧ i < N) ∧ Q () (setElem B j i v) := by
  have hright : j < M ∧ i < N → (writeB j i v).run B = some ((), setElem B j i v) :=
    fun h => if_pos h
  rw [wp_access hright fun h => if_neg h]
  exact exists_prop

/-- The elements of `B` at the places `W` are those of the transpose. -/
def Done (A : Matrix (Fin N) (Fin M) ℤ) (B : Dest M N) (W : ℕ → ℕ → Prop) : Prop :=
  ∀ (j : Fin M) (i : Fin N), W j i → B j i = A i j

variable {W W' : ℕ → ℕ → Prop}

lemma Done.mono (h : Done A B W) (hW : ∀ j i, j < M → i < N → W' j i → W j i) : Done A B W' :=
  fun j i hw => h j i (hW j i j.isLt i.isLt hw)

/-- Writing the right element does one more place and undoes none. -/
lemma Done.write (h : Done A B W) (hi : i < N) (hj : j < M) :
    Done A (setElem B j i (A ⟨i, hi⟩ ⟨j, hj⟩)) fun j' i' => W j' i' ∨ j' = j ∧ i' = i := by
  intro j' i' hw
  rw [setElem]
  split_ifs with hhere
  · obtain ⟨rfl, rfl⟩ := hhere
    rfl
  · exact h j' i' (hw.resolve_right hhere)

/-- An array that is done everywhere is the transpose. -/
lemma Done.eq (h : Done A B fun _ _ => True) : B = A.transpose := by
  ext j i
  exact h j i trivial

lemma wp_isTranspose : wp (isTranspose A) (fun r B => r = 1 ∧ B = A.transpose) A.transpose := by
  have hrow : ∀ i < N, wp (searchLoop M (fun j => do
      let a ← readA A i j
      let b ← readB j i
      pure (if a ≠ b then some (0 : ℤ) else none)) 0)
      (fun r B => r = none ∧ B = A.transpose) A.transpose := by
    intro i hi
    refine wp_searchLoop ?_ 0
    intro j hj
    simp only [wp_bind, wp_readA, wp_readB, wp_pure]
    exact ⟨hi, hj, hj, hi, if_neg fun h => h rfl, trivial⟩
  refine wp_call (wp_searchLoop hrow 0) ?_
  rintro _ _ ⟨rfl, rfl⟩
  exact (wp_pure _ _ _).2 ⟨rfl, rfl⟩

/-- The contract at the end of the transpose functions. -/
lemma wp_ensures (h : Done A B fun _ _ => True) :
    wp (isTranspose A >>= fun ok => check (ok ≠ 0)) (fun _ B => B = A.transpose) B := by
  rw [h.eq]
  refine wp_call wp_isTranspose ?_
  rintro _ _ ⟨rfl, rfl⟩
  exact (wp_check _ _ _).2 ⟨one_ne_zero, rfl⟩

/-- A call that returns after valid accesses only and leaves the transpose of `A` in `B`, which
`is_transpose` confirms. -/
structure Transposes (A : Matrix (Fin N) (Fin M) ℤ) (call : Prog (Dest M N) Unit)
    (B : Dest M N) : Prop where
  returns : call.run B = some ((), A.transpose)
  confirmed : (isTranspose A).run A.transpose = some (1, A.transpose)

lemma transposes_of_wp {call : Prog (Dest M N) Unit}
    (h : wp call (fun _ B' => B' = A.transpose) B) : Transposes A call B :=
  ⟨run_eq_some_iff.2 (wp_mono h fun _ _ hB => ⟨rfl, hB⟩), run_eq_some_iff.2 wp_isTranspose⟩

end Done

/-! ## The baseline -/

section Baseline
variable {A : Matrix (Fin N) (Fin M) ℤ} {B : Dest M N}

lemma wp_trans (hM : 0 < M) (hMN : M = N) : wp (trans A) (fun _ B' => B' = A.transpose) B := by
  subst hMN
  -- the counters run over one range, so the order of the bounds does not show
  have hrow : ∀ i (t : Unit) (B : Dest M M), i < M → Done A B (fun _ i' => i' < i) →
      wp (forLoop M 1 (fun j _ => do
        let v ← readA A i j
        writeB j i v) 0 t) (fun _ B => Done A B fun _ i' => i' < i + 1) B := by
    intro i t B hi hB
    refine wp_mono (wp_forLoop one_pos ?_
      (I := fun j _ B => Done A B fun j' i' => i' < i ∨ i' = i ∧ j' < j)
      (hB.mono fun j' i' _ _ hw => by omega)) ?_
    · intro j _ B hj hB
      simp only [wp_bind, wp_readA, wp_writeB]
      exact ⟨hi, hj, ⟨hj, hi⟩, (hB.write hi hj).mono fun j' i' _ _ hw => by omega⟩
    · rintro _ B ⟨j, hj, hB⟩
      exact hB.mono fun j' i' _ _ hw => by omega
  have hloop := wp_forLoop (τ := Unit) (s := B) (i := 0) (t := ()) one_pos hrow
    fun j i hlt => absurd hlt (Nat.not_lt_zero _)
  unfold trans
  simp only [wp_bind, wp_check]
  refine ⟨hM, hM, wp_mono hloop ?_⟩
  rintro _ B' ⟨i, hi, hB'⟩
  exact wp_ensures (hB'.mono fun j' i' _ _ _ => by omega)

/-- The counters run over the rows and the columns of the wrong array. -/
lemma not_wp_trans (hMN : M ≠ N) (Q : Unit → Dest M N → Prop) : ¬ wp (trans A) Q B := by
  unfold trans
  simp only [wp_bind, wp_check]
  rintro ⟨hM, hN, hwp⟩
  revert hwp
  rcases Nat.lt_or_gt_of_ne hMN with hlt | hgt
  · -- the element `A[0][M]`
    refine not_wp_forLoop (n := 0) (by omega) fun t B => ?_
    refine not_wp_forLoop (n := M) (by omega) fun t B => ?_
    simp only [wp_bind, wp_readA]
    rintro ⟨-, hj, -⟩
    omega
  · -- the element `A[N][0]`
    refine not_wp_forLoop (n := N) (by omega) fun t B => ?_
    refine not_wp_forLoop (n := 0) (by omega) fun t B => ?_
    simp only [wp_bind, wp_readA]
    rintro ⟨hi, -⟩
    omega

/-- **The baseline transposes square arrays** and fails on all others. -/
theorem trans_transposes_iff (hM : 0 < M) (A : Matrix (Fin N) (Fin M) ℤ)
    (B : Dest M N) : Transposes A (trans A) B ↔ M = N := by
  constructor
  · intro h
    by_contra hMN
    exact not_wp_trans hMN _ (run_eq_some_iff.1 h.returns)
  · intro hMN
    exact transposes_of_wp (wp_trans hM hMN)

theorem trans_transposes_square :
    Transposes !![1, 2; 3, 4] (trans !![1, 2; 3, 4]) 0 :=
  (trans_transposes_iff (by decide) _ _).2 rfl

/-- A row of two elements. -/
theorem not_trans_transposes_row : ¬ Transposes !![1, 2] (trans !![1, 2]) 0 := by
  intro h
  exact not_wp_trans (by decide) _ (run_eq_some_iff.1 h.returns)

end Baseline

/-! ## The diagonal through temporaries -/

section Diagonal
variable {A : Matrix (Fin N) (Fin M) ℤ} {B : Dest M N} {d ii jj i : ℕ} {t : Temps}
variable {W : ℕ → ℕ → Prop}

/-- The element that waits in `temp` is the diagonal one of row `temp3`. -/
def Temps.Holds (t : Temps) (A : Matrix (Fin N) (Fin M) ℤ) : Prop :=
  ∀ k, t.temp3 = some k → ∃ (hi : k < N) (hj : k < M), t.temp = some (A ⟨k, hi⟩ ⟨k, hj⟩)

/-- In a row of a block, as far as column `j`. -/
structure RowInv (A : Matrix (Fin N) (Fin M) ℤ) (W : ℕ → ℕ → Prop) (ii jj i j : ℕ) (t : Temps)
    (B : Dest M N) : Prop where
  start : jj ≤ j
  holds : t.Holds A
  done : Done A B fun j' i' => W j' i' ∨ i' = i ∧ jj ≤ j' ∧ j' < j ∧ j' ≠ i
  passed : jj ≤ i → i < j → t.temp3 = some i
  set : ii = jj → jj < i → t.temp3.isSome

/-- A row without a diagonal element leaves the temporaries to the row before it, whose diagonal
element is then written once more. -/
lemma wp_blockRow (hd : 0 < d) (hi : i < N) (hjj : jj < M) (hle : ii = jj → jj ≤ i)
    (ht : t.Holds A) (hset : ii = jj → jj < i → t.temp3.isSome) (hB : Done A B W) :
    wp (blockRow A d ii jj i t) (fun t B => t.Holds A ∧ (ii = jj → t.temp3.isSome) ∧
      Done A B fun j' i' =>
        W j' i' ∨ i' = i ∧ jj ≤ j' ∧ j' < jj + d ∧ (j' = i → ii = jj)) B := by
  refine wp_call (wp_forLoop (I := RowInv A W ii jj i) one_pos ?_ ?_) ?_
  · intro j t B hj h
    have hjM : j < M := hj.trans_le (Nat.min_le_right _ _)
    have hstart := h.start
    rw [wp_ite]
    split_ifs with hij
    · -- off the diagonal
      simp only [wp_bind, wp_readA, wp_writeB, wp_pure]
      refine ⟨hi, hjM, ⟨hjM, hi⟩, by omega, h.holds, ?_, fun hji hlt => ?_, h.set⟩
      · exact (h.done.write hi hjM).mono fun j' i' _ _ hw => by grind
      · exact h.passed hji (by omega)
    · -- the diagonal element goes into `temp`, and its place into `temp3`
      obtain rfl := not_not.1 hij
      simp only [wp_bind, wp_readA, wp_pure]
      refine ⟨hi, hjM, by omega, ?_, ?_, fun _ _ => rfl, fun _ _ => rfl⟩
      · rintro k ⟨⟩
        exact ⟨hi, hjM, rfl⟩
      · exact h.done.mono fun j' i' _ _ hw => by grind
  · exact ⟨le_rfl, ht, hB.mono fun j' i' _ _ hw => by grind, fun _ _ => by omega, hset⟩
  rintro t B ⟨j, hj, h⟩
  rw [min_le_iff] at hj
  simp only [wp_bind, wp_runIf, wp_value, wp_writeB, wp_pure]
  split_ifs with hblock
  · -- the row of the block's corner has a diagonal element
    have hisSome : t.temp3.isSome := by
      have := hle hblock
      rcases this.lt_or_eq with hlt | heq
      · exact h.set hblock hlt
      · rw [h.passed this (by omega)]
        rfl
    obtain ⟨k, hk⟩ := Option.isSome_iff_exists.1 hisSome
    obtain ⟨hkN, hkM, htemp⟩ := h.holds k hk
    refine ⟨k, hk, _, htemp, ⟨hkM, hkN⟩, h.holds, fun _ => hisSome, ?_⟩
    refine (h.done.write hkN hkM).mono fun j' i' hj' _ hw => ?_
    -- if this row has a diagonal element, then `k` is its place
    have hpassed := h.passed
    grind
  · refine ⟨h.holds, fun hc => absurd hc hblock, h.done.mono fun j' i' hj' _ hw => ?_⟩
    grind

/-- In a block, as far as row `i`. -/
structure BlockInv (A : Matrix (Fin N) (Fin M) ℤ) (W : ℕ → ℕ → Prop) (d ii jj i : ℕ) (t : Temps)
    (B : Dest M N) : Prop where
  start : ii ≤ i
  holds : t.Holds A
  done : Done A B fun j' i' => W j' i' ∨ ii ≤ i' ∧ i' < i ∧ jj ≤ j' ∧ j' < jj + d
  set : ii = jj → ii < i → t.temp3.isSome

/-- A block at multiples of its size meets the diagonal only if it is on it. -/
lemma eq_of_diagonal (hii : d ∣ ii) (hjj : d ∣ jj) (h1 : ii < jj + d) (h2 : jj < ii + d) :
    ii = jj := by
  obtain ⟨m, rfl⟩ := hii
  obtain ⟨n, rfl⟩ := hjj
  rcases Nat.lt_trichotomy m n with hlt | rfl | hgt
  · have := Nat.mul_le_mul_left d (Nat.succ_le_of_lt hlt)
    rw [Nat.mul_succ] at this
    omega
  · rfl
  · have := Nat.mul_le_mul_left d (Nat.succ_le_of_lt hgt)
    rw [Nat.mul_succ] at this
    omega

lemma wp_diagonalBlock (hd : 0 < d) (hii : d ∣ ii) (hjj : d ∣ jj) (hjM : jj < M)
    (ht : t.Holds A) (hB : Done A B W) :
    wp (forLoop (min (ii + d) N) 1 (blockRow A d ii jj) ii t) (fun t B => t.Holds A ∧
      Done A B fun j' i' => W j' i' ∨ ii ≤ i' ∧ i' < ii + d ∧ jj ≤ j' ∧ j' < jj + d) B := by
  refine wp_mono (wp_forLoop (I := BlockInv A W d ii jj) one_pos ?_ ?_) ?_
  · intro i t B hi h
    rw [lt_min_iff] at hi
    have hstart := h.start
    refine wp_mono (wp_blockRow hd hi.2 hjM (fun hc => hc ▸ hstart) h.holds
      (fun hc hlt => h.set hc (hc ▸ hlt)) h.done) ?_
    rintro t' B' ⟨ht', hset, hB'⟩
    refine ⟨by omega, ht', hB'.mono fun j' i' _ _ hw => ?_, fun hc _ => hset hc⟩
    have hdiag : j' = i → jj ≤ j' → j' < jj + d → ii = jj :=
      fun _ _ _ => eq_of_diagonal hii hjj (by omega) (by omega)
    grind
  · exact ⟨le_rfl, ht, hB.mono fun j' i' _ _ hw => by grind, fun _ _ => by omega⟩
  · rintro t' B' ⟨i, hi, h⟩
    rw [min_le_iff] at hi
    exact ⟨h.holds, h.done.mono fun j' i' _ _ hw => by grind⟩

/-- In a row of blocks, as far as the block at column `jj`. -/
structure RowsInv (A : Matrix (Fin N) (Fin M) ℤ) (d ii jj : ℕ) (t : Temps) (B : Dest M N) :
    Prop where
  aligned : d ∣ jj
  holds : t.Holds A
  done : Done A B fun j' i' => i' < ii ∨ i' < ii + d ∧ j' < jj

lemma wp_transposeDiagonal (hd : 0 < d) :
    wp (transposeDiagonal A d d) (fun _ B => Done A B fun _ _ => True) B := by
  refine wp_call (wp_forLoop (i := 0) (t := ⟨none, none⟩) (s := B) hd ?_
    (I := fun ii (t : Temps) B => d ∣ ii ∧ t.Holds A ∧ Done A B fun _ i' => i' < ii) ?_) ?_
  · rintro ii t B hii ⟨hdvd, ht, hB⟩
    refine wp_mono (wp_forLoop (I := RowsInv A d ii) hd ?_ ?_) ?_
    · intro jj t B hjj h
      refine wp_mono (wp_diagonalBlock hd hdvd h.aligned hjj h.holds h.done) ?_
      rintro t' B' ⟨ht', hB'⟩
      exact ⟨h.aligned.add (dvd_refl d), ht', hB'.mono fun j' i' _ _ hw => by grind⟩
    · exact ⟨dvd_zero d, ht, hB.mono fun j' i' _ _ hw => by grind⟩
    · rintro t' B' ⟨jj, hjj, h⟩
      exact ⟨hdvd.add (dvd_refl d), h.holds, h.done.mono fun j' i' _ _ hw => by grind⟩
  · exact ⟨dvd_zero d, fun k hk => (by cases hk), fun _ _ hlt => absurd hlt (Nat.not_lt_zero _)⟩
  · rintro t' B' ⟨ii, hii, -, -, hB'⟩
    exact (wp_pure _ _ _).2 (hB'.mono fun j' i' _ _ _ => by grind)

end Diagonal

/-! ## Eight by eight -/

section Eight
variable {A : Matrix (Fin N) (Fin M) ℤ} {B : Dest M N} {ii jj : ℕ} {W : ℕ → ℕ → Prop}

lemma wp_leftHalf (hii : ii + 8 ≤ N) (hjj : jj + 8 ≤ M) (temp7 : Option ℤ) (hB : Done A B W) :
    wp (leftHalf A ii jj temp7) (fun _ B => Done A B fun j' i' =>
      W j' i' ∨ ii ≤ i' ∧ i' < ii + 8 ∧ jj ≤ j' ∧ j' < jj + 4) B := by
  refine wp_mono (wp_forLoop one_pos ?_ (I := fun i _ B => Done A B fun j' i' =>
    W j' i' ∨ ii ≤ i' ∧ i' < ii + i ∧ jj ≤ j' ∧ j' < jj + 4)
    (hB.mono fun j' i' _ _ hw => by grind)) ?_
  · intro i temp7 B hi h
    have hiN : ii + i < N := by omega
    simp only [wp_bind, wp_readA, wp_writeB, wp_pure]
    refine ⟨hiN, by omega, hiN, by omega, hiN, by omega, hiN, by omega, ⟨by omega, hiN⟩,
      ⟨by omega, hiN⟩, ⟨by omega, hiN⟩, ⟨by omega, hiN⟩, ?_⟩
    exact ((((h.write hiN _).write hiN _).write hiN _).write hiN _).mono
      fun j' i' _ _ hw => by grind
  · rintro _ B' ⟨i, hi, h⟩
    exact h.mono fun j' i' _ _ hw => by grind

lemma wp_rightHalf (hii : ii + 8 ≤ N) (hjj : jj + 8 ≤ M) (temp7 : Option ℤ) (hB : Done A B W) :
    wp (rightHalf A ii jj temp7) (fun _ B => Done A B fun j' i' =>
      W j' i' ∨ ii < i' ∧ i' < ii + 8 ∧ jj + 4 ≤ j' ∧ j' < jj + 8 ∧
        (j' = jj + 7 → i' ≠ ii + 1)) B := by
  refine wp_mono (wp_forLoop one_pos ?_ (I := fun i _ B => 1 ≤ i ∧ Done A B fun j' i' =>
    W j' i' ∨ ii < i' ∧ i' < ii + i ∧ jj + 4 ≤ j' ∧ j' < jj + 8 ∧ (j' = jj + 7 → i' ≠ ii + 1))
    ⟨le_rfl, hB.mono fun j' i' _ _ hw => by grind⟩) ?_
  · rintro i temp7 B hi ⟨hpos, h⟩
    have hiN : ii + i < N := by omega
    simp only [wp_bind, wp_readA]
    refine ⟨hiN, by omega, hiN, by omega, hiN, by omega, ?_⟩
    split_ifs with hfirst
    · simp only [wp_bind, wp_map, wp_readA, wp_writeB, wp_runIf, if_pos hfirst, wp_value, wp_pure]
      refine ⟨hiN, by omega, ⟨by omega, hiN⟩, ⟨by omega, hiN⟩, ⟨by omega, hiN⟩, _, rfl,
        ⟨by omega, hiN⟩, by omega, ?_⟩
      exact ((((h.write hiN _).write hiN _).write hiN _).write hiN _).mono
        fun j' i' _ _ hw => by grind
    · -- the last element of this row is the one that waits in `j`
      simp only [wp_bind, wp_writeB, wp_runIf, if_neg hfirst, wp_pure]
      refine ⟨⟨by omega, hiN⟩, ⟨by omega, hiN⟩, ⟨by omega, hiN⟩, by omega, ?_⟩
      exact (((h.write hiN _).write hiN _).write hiN _).mono fun j' i' _ _ hw => by grind
  · rintro _ B' ⟨i, hi, -, h⟩
    exact h.mono fun j' i' _ _ hw => by grind

lemma wp_block8 (hii : ii + 8 ≤ N) (hjj : jj + 8 ≤ M) (temp7 : Option ℤ) (hB : Done A B W) :
    wp (block8 A ii jj temp7) (fun _ B => Done A B fun j' i' =>
      W j' i' ∨ ii ≤ i' ∧ i' < ii + 8 ∧ jj ≤ j' ∧ j' < jj + 8) B := by
  -- five elements are read before the loops and written after them
  have hi : ii < N := by omega
  have hi1 : ii + 1 < N := by omega
  unfold block8
  simp only [wp_bind, wp_readA]
  refine ⟨hi, by omega, hi, by omega, hi, by omega, hi, by omega, hi1, by omega, ?_⟩
  refine wp_mono (wp_leftHalf hii hjj temp7 hB) fun temp7 B hleft => ?_
  refine wp_call (wp_rightHalf hii hjj temp7 hleft) fun temp7 B hright => ?_
  simp only [wp_bind, wp_writeB, wp_pure]
  refine ⟨⟨by omega, hi⟩, ⟨by omega, hi⟩, ⟨by omega, hi⟩, ⟨by omega, hi⟩, ⟨by omega, hi1⟩, ?_⟩
  exact (((((hright.write hi _).write hi _).write hi _).write hi _).write hi1 _).mono
    fun j' i' _ _ hw => by grind

lemma wp_transpose8 (hM : 8 ∣ M) (hN : 8 ∣ N) :
    wp (transpose8 A) (fun _ B => Done A B fun _ _ => True) B := by
  refine wp_call (wp_forLoop (i := 0) (t := none) (s := B) (by norm_num) ?_
    (I := fun ii (_ : Option ℤ) B => 8 ∣ ii ∧ Done A B fun _ i' => i' < ii) ?_) ?_
  · rintro ii temp7 B hii ⟨hdvd, hB⟩
    refine wp_mono (wp_forLoop (by norm_num) ?_
      (I := fun jj _ B => 8 ∣ jj ∧ Done A B fun j' i' => i' < ii ∨ i' < ii + 8 ∧ j' < jj)
      ⟨dvd_zero 8, hB.mono fun j' i' _ _ hw => by grind⟩) ?_
    · rintro jj temp7 B hjj ⟨hdvd', hB⟩
      refine wp_mono (wp_block8 (by omega) (by omega) temp7 hB) ?_
      intro _ B hB
      exact ⟨by omega, hB.mono fun j' i' _ _ hw => by grind⟩
    · rintro _ B ⟨jj, hjj, -, hB⟩
      exact ⟨by omega, hB.mono fun j' i' _ _ hw => by grind⟩
  · exact ⟨dvd_zero 8, fun _ _ hlt => absurd hlt (Nat.not_lt_zero _)⟩
  · rintro _ B ⟨ii, hii, -, hB⟩
    exact (wp_pure _ _ _).2 (hB.mono fun j' i' _ _ _ => by grind)

end Eight

/-- **The submission transposes** the shapes that it is made for. -/
theorem transposeSubmit_transposes
    (hshape : (M = 32 ∧ N = 32) ∨ (M = 61 ∧ N = 67) ∨ (M = 64 ∧ 0 < N ∧ 8 ∣ N))
    (A : Matrix (Fin N) (Fin M) ℤ) (B : Dest M N) : Transposes A (transposeSubmit A) B := by
  apply transposes_of_wp
  have hloops : wp (if M = 32 ∨ M = 61 then do
      let size ← value (blockSize M N)
      transposeDiagonal A size.1 size.2
    else runIf (M = 64) (transpose8 A)) (fun _ B => Done A B fun _ _ => True) B := by
    rcases hshape with ⟨rfl, rfl⟩ | ⟨rfl, rfl⟩ | ⟨rfl, -, hN⟩
    · rw [if_pos (by decide), wp_bind, wp_value]
      exact ⟨(8, 8), rfl, wp_transposeDiagonal (by decide)⟩
    · rw [if_pos (by decide), wp_bind, wp_value]
      exact ⟨(16, 16), rfl, wp_transposeDiagonal (by decide)⟩
    · rw [if_neg (by decide), wp_runIf, if_pos rfl]
      exact wp_transpose8 (by decide) hN
  have hpos : 0 < M ∧ 0 < N := by omega
  rw [transposeSubmit, wp_bind, wp_check]
  refine ⟨hpos.1, ?_⟩
  rw [wp_bind, wp_check]
  refine ⟨hpos.2, ?_⟩
  exact wp_call hloops fun _ _ hB => wp_ensures hB

theorem transposeSubmit_transposes_ragged :
    Transposes (fun i j => i.val * 61 + j.val)
      (transposeSubmit fun (i : Fin 67) (j : Fin 61) => (i.val * 61 + j.val : ℤ)) 0 :=
  transposeSubmit_transposes (Or.inr (Or.inl ⟨rfl, rfl⟩)) _ _

end Cachelab
end SystemsLabs
