import Mathlib.Algebra.Order.Ring.Int
import Flowgraph.Proofs.Constant.Depth

/-! # Integer arithmetic

Operators on integer constants give the exact results, reduced to 64 bits where they do not fit.
-/

namespace Flowgraph.Constant

variable {a b : Int64}

/-! ## Remainders and shifts -/

/-- A remainder below zero is moved up by the size of the divisor, which keeps it in range. -/
theorem toInt_intMod (hb : b ≠ 0) : (intMod a b).toInt = a.toInt % b.toInt := by
  have hb' : b.toInt ≠ 0 := by simpa [← Int64.toInt_inj] using hb
  have hmin := b.le_toInt
  have hmax := b.toInt_lt
  have hlow := Int.emod_nonneg a.toInt hb'
  have hhigh := Int.emod_lt a.toInt hb'
  have hmod : (a % b).toInt = if a.toInt.tmod b.toInt < 0 then a.toInt % b.toInt - b.toInt.natAbs
      else a.toInt % b.toInt := by
    rw [Int64.toInt_mod, Int.tmod_eq_emod]
    split <;> split <;> omega
  unfold intMod
  simp only [Int64.lt_iff_toInt_lt, Int64.toInt_zero]
  split_ifs
  · rw [Int64.toInt_sub, Int.bmod_eq_of_le] <;> split at hmod <;> omega
  · rw [Int64.toInt_add, Int.bmod_eq_of_le] <;> split at hmod <;> omega
  · split at hmod <;> omega

/-- Counts below the width are taken as they are. -/
theorem toNat_smod (hb : 0 ≤ b.toInt) (hlt : b.toInt < 64) :
    (b.toBitVec.smod 64).toNat = b.toInt.toNat := by
  have h : (b.toBitVec.smod 64).toInt = b.toInt := by
    rw [BitVec.toInt_smod]
    exact Int.fmod_eq_of_lt hb hlt
  rw [BitVec.toInt_eq_toNat_cond] at h
  split at h <;> omega

theorem toInt_shiftLeft (hb : 0 ≤ b.toInt) :
    (shiftLeft a b).toInt = (a.toInt * 2 ^ b.toInt.toNat).bmod (2 ^ 64) := by
  unfold shiftLeft
  simp only [Int64.lt_iff_toInt_lt]
  split
  · rename_i hlt
    rw [← Int64.toInt_toBitVec, Int64.toBitVec_shiftLeft, BitVec.shiftLeft_eq', BitVec.toInt_shiftLeft,
      toNat_smod hb hlt, Nat.shiftLeft_eq, ← Int64.toInt_toBitVec a, BitVec.toInt_eq_toNat_bmod,
      Int.bmod_mul_bmod]
    simp
  · rename_i hlt
    have hcount : 64 ≤ b.toInt.toNat := by
      have : ¬b.toInt < 64 := hlt
      omega
    exact (Int.bmod_eq_zero_of_dvd (Dvd.dvd.mul_left (pow_dvd_pow 2 hcount) a.toInt)).symm

theorem toInt_shiftRight (hb : 0 ≤ b.toInt) :
    (shiftRight a b).toInt = a.toInt.fdiv (2 ^ b.toInt.toNat) := by
  rw [Int.fdiv_eq_ediv_of_nonneg _ (pow_nonneg (by decide) _)]
  unfold shiftRight
  simp only [Int64.lt_iff_toInt_lt]
  split
  · rename_i hlt
    rw [← Int64.toInt_toBitVec, Int64.toBitVec_shiftRight, BitVec.sshiftRight', BitVec.toInt_sshiftRight,
      toNat_smod hb hlt, Int.shiftRight_eq_div_pow]
    rfl
  · rename_i hlt
    have hcount : 63 ≤ b.toInt.toNat := by
      have : ¬b.toInt < 64 := hlt
      omega
    have hpow : (2 : Int) ^ 63 ≤ 2 ^ b.toInt.toNat := pow_le_pow_right₀ (by decide) hcount
    have hmin := a.le_toInt
    have hmax := a.toInt_lt
    split
    · rename_i hneg
      exact (Int.ediv_eq_neg_one_of_neg_of_le hneg (by omega)).symm
    · rename_i hneg
      exact (Int.ediv_eq_zero_of_lt (Int.not_lt.mp hneg) (by omega)).symm

/-! ## Folding -/

/-- An operator that is applied to integer literals. -/
def operation (place : Position) (name : String) (a : Int64) (args : List Int64) : Tree.Expr :=
  .methodCall place (.int place a) name ⟨args.map (.int place), []⟩

/-- The expression folds to an integer constant, whatever is in the store. -/
def FoldsTo (e : Tree.Expr) (n : Int) : Prop :=
  ∀ s, ∃ id v s', evalFrom (fold e) s = (.ok (.int id v), s') ∧ v.toInt = n

/-- Folding the expression fails with an error about it. -/
def Refused (e : Tree.Expr) (message : String) : Prop :=
  ∀ s, ∃ s', evalFrom (fold e) s = (.error (.failed (.of .notConstant e.place message)), s')

theorem intern_int (n : Int64) (s : Store) :
    ∃ id s', evalFrom (intern (.int · n)) s = (.ok (.int id n), s') := by
  obtain ⟨id, hid⟩ : ∃ id, (s.pool.intern (.int · n)).1 = .int id n := by
    rcases s.pool.intern_cases (.int n) with ⟨v, -, hkey, h⟩ | ⟨-, h⟩
    · cases v <;> cases hkey
      exact ⟨_, congrArg Prod.fst h⟩
    · exact ⟨_, congrArg Prod.fst h⟩
  exact ⟨id, _, congrArg (fun v => (Except.ok v, _)) hid⟩

theorem fold_unary (place : Position) (name : String) (a : Int64) (s : Store) : ∃ i s',
    evalFrom (fold (operation place name a [])) s =
      evalFrom (dispatch place (.int i a) name []) s' := by
  obtain ⟨i, s', h⟩ := intern_int a s
  refine ⟨i, s', ?_⟩
  unfold fold operation maxDepth
  rw [evaluate, evalFrom_bind, evaluate, h]
  rfl

theorem fold_binary (place : Position) (name : String) (a b : Int64) (s : Store) : ∃ i j s',
    evalFrom (fold (operation place name a [b])) s =
      evalFrom (dispatch place (.int i a) name [.int j b]) s' := by
  obtain ⟨i, s1, h1⟩ := intern_int a s
  obtain ⟨j, s2, h2⟩ := intern_int b s1
  refine ⟨i, j, s2, ?_⟩
  have hargs : evalFrom (evaluatePositional (evaluateField maxDepth) 99999 [] place
      ⟨[.int place b], []⟩) s1 = (.ok [.int j b], s2) := by
    rw [evaluatePositional]
    change evalFrom ([Tree.Expr.int place b].mapM (evaluate _ 99998 [])) s1 = _
    rw [List.mapM_cons, List.mapM_nil, evalFrom_bind, evaluate, h2]
    rfl
  unfold fold operation
  change evalFrom (evaluate _ 100000 [] _) s = _
  rw [evaluate, evalFrom_bind, evaluate, h1]
  dsimp only
  rw [evalFrom_bind, List.map_cons, List.map_nil, hargs]

section

variable {place : Position} {name : String}

theorem foldsTo_binary {n : Int64} {m : Int} (h : intOp a name b = .ok (some (.int n)))
    (hname : name ≠ Symbols.equalsOperator) (hn : n.toInt = m) :
    FoldsTo (operation place name a [b]) m := by
  intro s
  obtain ⟨i, j, s1, hs⟩ := fold_binary place name a b s
  obtain ⟨id, s2, hn'⟩ := intern_int n s1
  refine ⟨id, n, s2, ?_, hn⟩
  rw [hs, ← hn']
  simp only [dispatch, if_neg hname, binaryOp, h]
  rfl

theorem refused_binary {e : OperatorError} (h : intOp a name b = .error e)
    (hname : name ≠ Symbols.equalsOperator) : Refused (operation place name a [b]) e.message := by
  intro s
  obtain ⟨i, j, s1, hs⟩ := fold_binary place name a b s
  refine ⟨s1, ?_⟩
  rw [hs]
  simp only [dispatch, if_neg hname, binaryOp, h]
  rfl

theorem foldsTo_negation : FoldsTo (operation place "unary-" a []) ((-a.toInt).bmod (2 ^ 64)) := by
  intro s
  obtain ⟨i, s1, hs⟩ := fold_unary place "unary-" a s
  obtain ⟨id, s2, hn⟩ := intern_int (-a) s1
  exact ⟨id, -a, s2, hs.trans hn, Int64.toInt_neg a⟩

end

/-- All arithmetic on integers is exact modulo `2 ^ 64`. -/
theorem arithmetic_exact (place : Position) (a b : Int64) :
    let unary name := operation place name a []
    let binary name := operation place name a [b]
    FoldsTo (binary "+") ((a.toInt + b.toInt).bmod (2 ^ 64)) ∧
    FoldsTo (binary "-") ((a.toInt - b.toInt).bmod (2 ^ 64)) ∧
    FoldsTo (binary "*") ((a.toInt * b.toInt).bmod (2 ^ 64)) ∧
    FoldsTo (unary "unary-") ((-a.toInt).bmod (2 ^ 64)) ∧
    (if b = 0 then
      Refused (binary "~/") "integer division by zero" ∧
      Refused (binary "%") "integer division by zero"
    else
      FoldsTo (binary "~/") ((a.toInt.tdiv b.toInt).bmod (2 ^ 64)) ∧
      ∃ r, FoldsTo (binary "%") r ∧
        ∀ x, x = r ↔ 0 ≤ x ∧ x < b.toInt.natAbs ∧ b.toInt ∣ a.toInt - x) ∧
    (if b < 0 then
      Refused (binary "<<") "negative shift count" ∧ Refused (binary ">>") "negative shift count"
    else
      FoldsTo (binary "<<") ((a.toInt * 2 ^ b.toInt.toNat).bmod (2 ^ 64)) ∧
      FoldsTo (binary ">>") (a.toInt.fdiv (2 ^ b.toInt.toNat))) := by
  refine ⟨foldsTo_binary rfl (by decide) (Int64.toInt_add a b),
    foldsTo_binary rfl (by decide) (Int64.toInt_sub a b),
    foldsTo_binary rfl (by decide) (Int64.toInt_mul a b), foldsTo_negation, ?_, ?_⟩
  · split
    · rename_i hb
      exact ⟨refused_binary (e := .divisionByZero) (if_pos hb) (by decide),
        refused_binary (e := .divisionByZero) (if_pos hb) (by decide)⟩
    · rename_i hb
      refine ⟨foldsTo_binary (if_neg hb) (by decide) (Int64.toInt_div a b), _,
        foldsTo_binary (if_neg hb) (by decide) (toInt_intMod hb), fun x => ⟨?_, ?_⟩⟩
      · rintro rfl
        have hb' : b.toInt ≠ 0 := by simpa [← Int64.toInt_inj] using hb
        exact ⟨Int.emod_nonneg _ hb', Int.emod_lt _ hb', Int.dvd_self_sub_emod⟩
      · rintro ⟨hlow, hhigh, hdvd⟩
        rw [Int.emod_eq_emod_iff_emod_sub_eq_zero.mpr (Int.emod_eq_zero_of_dvd hdvd), ← Int.emod_abs,
          Int.abs_eq_natAbs, Int.emod_eq_of_lt hlow hhigh]
  · split
    · rename_i hb
      exact ⟨refused_binary (e := .negativeShift) (if_pos hb) (by decide),
        refused_binary (e := .negativeShift) (if_pos hb) (by decide)⟩
    · rename_i hb
      have hb' : 0 ≤ b.toInt := Int.not_lt.mp fun h => hb (Int64.lt_iff_toInt_lt.mpr h)
      exact ⟨foldsTo_binary (if_neg hb) (by decide) (toInt_shiftLeft hb'),
        foldsTo_binary (if_neg hb) (by decide) (toInt_shiftRight hb')⟩

end Flowgraph.Constant
