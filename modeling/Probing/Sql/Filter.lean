import Probing.Core.TsRange
import Probing.Memt.Schema

/-!
# Filters and the time window they imply

A filter is an expression over one row with three truth values. Only the shapes
that `fold_ts_predicate` reads are syntax here; everything else an expression may
contain is a foreign node whose meaning the engine gives.
-/

namespace Probing.Sql

open Probing.Memt (DType Value)

/-- A row in schema order. -/
abbrev Row := List Value

/-- What an expression evaluates to. -/
inductive Datum
  | null
  | boolean (b : Bool)
  | integer (z : ℤ)
  | plain (v : Value)
  deriving DecidableEq

def Datum.ofValue : Value → Datum
  | .U8 v => .integer v.toNat
  | .U32 v => .integer v.toNat
  | .I32 v => .integer v.toInt
  | .I64 v => .integer v.toInt
  | .U64 v => .integer v.toNat
  | .F32 v => .plain (.F32 v)
  | .F64 v => .plain (.F64 v)
  | .Str v => .plain (.Str v)
  | .Bytes v => .plain (.Bytes v)

/-- The literals that may bound a timestamp. -/
inductive ScalarValue
  | Int64 (v : Option Int64)
  | Int32 (v : Option Int32)
  | UInt32 (v : Option UInt32)
  | UInt64 (v : Option UInt64)
  | TimestampMicrosecond (v : Option Int64)

def ScalarValue.datum : ScalarValue → Datum
  | .Int64 v => (v.map fun v => Datum.integer v.toInt).getD .null
  | .Int32 v => (v.map fun v => Datum.integer v.toInt).getD .null
  | .UInt32 v => (v.map fun v => Datum.integer v.toNat).getD .null
  | .UInt64 v => (v.map fun v => Datum.integer v.toNat).getD .null
  | .TimestampMicrosecond v => (v.map fun v => Datum.integer v.toInt).getD .null

/-- Binary operators; `Other` stands for any that is not named. -/
inductive Operator (F : Type)
  | And
  | Or
  | Eq
  | NotEq
  | Lt
  | LtEq
  | Gt
  | GtEq
  | Other (op : F)

inductive Expr (F : Type)
  | Column (name : String)
  | Literal (scalar : ScalarValue)
  | BinaryExpr (left : Expr F) (op : Operator F) (right : Expr F)
  | Between (expr low high : Expr F) (negated : Bool)
  | Not (expr : Expr F)
  | Foreign (f : F)

/-- The meaning the engine gives to what is not modelled. -/
structure Engine (F : Type) where
  foreign : F → Row → Datum
  binary : F → Datum → Datum → Datum
  /-- Order of two data that are not both integers, `none` for no answer. -/
  order : Datum → Datum → Option Ordering

/-- Kleene conjunction of two data. -/
def Datum.and : Datum → Datum → Datum
  | .boolean false, _ => .boolean false
  | _, .boolean false => .boolean false
  | .boolean true, .boolean true => .boolean true
  | _, _ => .null

def Datum.not : Datum → Datum
  | .boolean b => .boolean !b
  | _ => .null

def Datum.or (a b : Datum) : Datum := (a.not.and b.not).not

namespace Engine

variable {F : Type} (E : Engine F)

/-- Integers compare by value, also between types. -/
def compare : Datum → Datum → Option Ordering
  | .null, _ => none
  | _, .null => none
  | .integer a, .integer b => some (Ord.compare a b)
  | a, b => E.order a b

def test (p : Ordering → Bool) (a b : Datum) : Datum :=
  ((E.compare a b).map fun o => Datum.boolean (p o)).getD .null

def apply (op : Operator F) (a b : Datum) : Datum :=
  match op with
  | .And => a.and b
  | .Or => a.or b
  | .Eq => E.test (· = .eq) a b
  | .NotEq => E.test (· ≠ .eq) a b
  | .Lt => E.test (· = .lt) a b
  | .LtEq => E.test (· ≠ .gt) a b
  | .Gt => E.test (· = .gt) a b
  | .GtEq => E.test (· ≠ .lt) a b
  | .Other op => E.binary op a b

/-- The value of the column of this name. -/
def cell (names : List String) (name : String) (row : Row) : Option Value :=
  (names.idxOf? name).bind (row[·]?)

def eval (names : List String) : Expr F → Row → Datum
  | .Column name, row => ((cell names name row).map Datum.ofValue).getD .null
  | .Literal scalar, _ => scalar.datum
  | .BinaryExpr left op right, row => E.apply op (eval names left row) (eval names right row)
  | .Between expr low high negated, row =>
      let inside := (E.apply .GtEq (eval names expr row) (eval names low row)).and
        (E.apply .LtEq (eval names expr row) (eval names high row))
      if negated then inside.not else inside
  | .Not expr, row => (eval names expr row).not
  | .Foreign f, row => E.foreign f row

/-- A row passes when every filter is true. -/
def passes (names : List String) (filters : List (Expr F)) (row : Row) : Bool :=
  filters.all fun f => E.eval names f row = .boolean true

end Engine

/-- Inclusive time window; `none` on a side is unbounded. -/
structure TsBounds where
  lower : Option Int64
  upper : Option Int64
  deriving DecidableEq

namespace TsBounds

def unbounded : TsBounds := ⟨none, none⟩

def isUnbounded (b : TsBounds) : Bool := b.lower.isNone && b.upper.isNone

def tightenLower (b : TsBounds) (v : Int64) : TsBounds :=
  { b with lower := some ((b.lower.map fun cur => max cur v).getD v) }

def tightenUpper (b : TsBounds) (v : Int64) : TsBounds :=
  { b with upper := some ((b.upper.map fun cur => min cur v).getD v) }

/-- A recorded range lies outside the window. -/
def misses (b : TsBounds) (range : Int64 × Int64) : Bool :=
  b.lower.any (fun lo => range.2 < lo) || b.upper.any (fun hi => range.1 > hi)

/-- The window has the integer. -/
def Has (b : TsBounds) (z : ℤ) : Prop :=
  (∀ lo ∈ b.lower, lo.toInt ≤ z) ∧ ∀ hi ∈ b.upper, z ≤ hi.toInt

/-- The window has the value, or this is no integer, of which a comparison may say anything. -/
def Admits (b : TsBounds) (x : Value) : Prop := ∀ z, Datum.ofValue x = .integer z → b.Has z

end TsBounds

section Fold

variable {F : Type}

def literalAsI64 : Expr F → Option Int64
  | .Literal (.Int64 v) => v
  | .Literal (.Int32 v) => v.map Int32.toInt64
  | .Literal (.UInt32 v) => v.map fun v => Int64.ofNat v.toNat
  | .Literal (.UInt64 v) => v.bind fun v => if v.toNat < 2 ^ 63 then
    some (Int64.ofNat v.toNat) else none
  | .Literal (.TimestampMicrosecond v) => v
  | _ => none

def isTsColumn (ts_name : String) : Expr F → Bool
  | .Column name => name = ts_name
  | _ => false

def Operator.mirrored : Operator F → Operator F
  | .Gt => .Lt
  | .GtEq => .LtEq
  | .Lt => .Gt
  | .LtEq => .GtEq
  | other => other

/-- Strict comparisons are widened to inclusive bounds. -/
def foldComparison (op : Operator F) (lit : Int64) (bounds : TsBounds) : TsBounds :=
  match op with
  | .Gt | .GtEq => bounds.tightenLower lit
  | .Lt | .LtEq => bounds.tightenUpper lit
  | .Eq => (bounds.tightenLower lit).tightenUpper lit
  | _ => bounds

def foldTsPredicate (ts_name : String) : Expr F → TsBounds → TsBounds
  | .BinaryExpr left .And right, bounds =>
      foldTsPredicate ts_name right (foldTsPredicate ts_name left bounds)
  | .BinaryExpr left op right, bounds =>
      if isTsColumn ts_name left then
        match literalAsI64 right with
        | some v => foldComparison op v bounds
        | none => bounds
      else if isTsColumn ts_name right then
        match literalAsI64 left with
        | some v => foldComparison op.mirrored v bounds
        | none => bounds
      else bounds
  | .Between expr low high negated, bounds =>
      if !negated && isTsColumn ts_name expr then
        let bounds := match literalAsI64 low with
          | some lo => bounds.tightenLower lo
          | none => bounds
        match literalAsI64 high with
        | some hi => bounds.tightenUpper hi
        | none => bounds
      else bounds
  | _, bounds => bounds

def tsBoundsFromFilters (ts_name : String) (filters : List (Expr F)) : TsBounds :=
  filters.foldl (fun bounds f => foldTsPredicate ts_name f bounds) .unbounded

end Fold

section Sound

variable {F : Type} {E : Engine F} {names : List String} {ts_name : String} {row : Row} {z : ℤ}
  {x : Value} {bounds : TsBounds}

theorem TsBounds.Has.unbounded (z : ℤ) : TsBounds.unbounded.Has z := by
  constructor <;> simp [TsBounds.unbounded]

theorem TsBounds.Has.lower (h : bounds.Has z) {lo : Int64} (hlo : lo.toInt ≤ z) :
    (bounds.tightenLower lo).Has z := by
  refine ⟨?_, h.2⟩
  intro l hl
  obtain rfl := Option.some.inj hl
  cases hcur : bounds.lower with
  | none => exact hlo
  | some cur =>
      rcases max_choice cur lo with hmax | hmax
      · simpa [hmax] using h.1 cur hcur
      · simpa [hmax] using hlo

theorem TsBounds.Has.upper (h : bounds.Has z) {hi : Int64} (hhi : z ≤ hi.toInt) :
    (bounds.tightenUpper hi).Has z := by
  refine ⟨h.1, ?_⟩
  intro u hu
  obtain rfl := Option.some.inj hu
  cases hcur : bounds.upper with
  | none => exact hhi
  | some cur =>
      rcases min_choice cur hi with hmin | hmin
      · simpa [hmin] using h.2 cur hcur
      · simpa [hmin] using hhi

/-- The bound of a literal is its integer. -/
theorem literal_value {e : Expr F} {lit : Int64} (h : literalAsI64 e = some lit) :
    E.eval names e row = .integer lit.toInt := by
  unfold literalAsI64 at h
  split at h
  · next v =>
      subst h
      rfl
  · next v =>
      obtain ⟨w, rfl, rfl⟩ := Option.map_eq_some_iff.mp h
      simp [Engine.eval, ScalarValue.datum]
  · next v =>
      obtain ⟨w, rfl, rfl⟩ := Option.map_eq_some_iff.mp h
      have hw := w.toNat_lt
      simp only [Engine.eval, ScalarValue.datum, Option.map_some, Option.getD_some,
        Datum.integer.injEq]
      rw [Int64.toInt_ofNat_of_lt (by omega)]
  · next v =>
      obtain ⟨w, rfl, hw⟩ := Option.bind_eq_some_iff.mp h
      obtain ⟨hlt, hlit⟩ := Option.ite_none_right_eq_some.mp hw
      rw [← Option.some.inj hlit, Int64.toInt_ofNat_of_lt hlt]
      rfl
  · next v =>
      subst h
      rfl
  · cases h

theorem Engine.test_integer (p : Ordering → Bool) (a b : ℤ) :
    E.test p (.integer a) (.integer b) = .boolean (p (Ord.compare a b)) := rfl

/-- Swapping the sides of a comparison mirrors the operator. -/
theorem Engine.apply_mirrored {op : Operator F} (hop : ∀ f, op ≠ .Other f) (hand : op ≠ .And)
    (hor : op ≠ .Or) (a b : ℤ) :
    E.apply op.mirrored (.integer b) (.integer a) = E.apply op (.integer a) (.integer b) := by
  have hswap : Ord.compare b a = (Ord.compare a b).swap := (Int.compare_swap a b).symm
  cases op with
  | And => exact absurd rfl hand
  | Or => exact absurd rfl hor
  | Other f => exact absurd rfl (hop f)
  | Eq | NotEq | Lt | LtEq | Gt | GtEq =>
      simp only [Operator.mirrored, Engine.apply, Engine.test_integer, hswap]
      cases Ord.compare a b <;> rfl

/-- A true comparison with the timestamp keeps it in the window. -/
theorem foldComparison_sound {op : Operator F} {lit : Int64} (h : bounds.Has z)
    (htrue : E.apply op (.integer z) (.integer lit.toInt) = .boolean true) :
    (foldComparison op lit bounds).Has z := by
  cases op with
  | And | Or | NotEq | Other => exact h
  | Eq =>
      have heq : Ord.compare z lit.toInt = .eq := by
        simpa [Engine.apply, Engine.test_integer] using htrue
      obtain rfl := compare_eq_iff_eq.mp heq
      exact (h.lower le_rfl).upper le_rfl
  | Lt =>
      have hlt : Ord.compare z lit.toInt = .lt := by
        simpa [Engine.apply, Engine.test_integer] using htrue
      exact h.upper (compare_lt_iff_lt.mp hlt).le
  | LtEq =>
      have hle : Ord.compare z lit.toInt ≠ .gt := by
        simpa [Engine.apply, Engine.test_integer] using htrue
      exact h.upper (compare_le_iff_le.mp hle)
  | Gt =>
      have hgt : Ord.compare z lit.toInt = .gt := by
        simpa [Engine.apply, Engine.test_integer] using htrue
      exact h.lower (compare_gt_iff_gt.mp hgt).le
  | GtEq =>
      have hge : Ord.compare z lit.toInt ≠ .lt := by
        simpa [Engine.apply, Engine.test_integer] using htrue
      exact h.lower (compare_ge_iff_ge.mp hge)

theorem Datum.and_eq_true {a b : Datum} (h : a.and b = .boolean true) :
    a = .boolean true ∧ b = .boolean true := by
  unfold Datum.and at h
  split at h <;> simp_all

/-- The timestamp column evaluates to its cell. -/
theorem eval_ts_column (hts : Engine.cell names ts_name row = some x) {e : Expr F}
    (he : isTsColumn ts_name e = true) : E.eval names e row = .ofValue x := by
  cases e with
  | Column name =>
      obtain rfl : name = ts_name := by simpa [isTsColumn] using he
      simp [Engine.eval, hts]
  | Literal | BinaryExpr | Between | Not | Foreign => cases he

theorem fold_binary {op : Operator F} (hand : op ≠ .And) (left right : Expr F) :
    foldTsPredicate ts_name (.BinaryExpr left op right) bounds =
      if isTsColumn ts_name left then
        match literalAsI64 right with
        | some v => foldComparison op v bounds
        | none => bounds
      else if isTsColumn ts_name right then
        match literalAsI64 left with
        | some v => foldComparison op.mirrored v bounds
        | none => bounds
      else bounds := by
  cases op with
  | And => exact absurd rfl hand
  | Or | Eq | NotEq | Lt | LtEq | Gt | GtEq | Other => rfl

/-- A filter that is true of a row keeps the row's timestamp in the window. -/
theorem foldTsPredicate_sound (hts : Engine.cell names ts_name row = some x)
    (hx : Datum.ofValue x = .integer z) {e : Expr F} (h : bounds.Has z)
    (htrue : E.eval names e row = .boolean true) : (foldTsPredicate ts_name e bounds).Has z := by
  induction e generalizing bounds with
  | Column | Literal | Not | Foreign => exact h
  | BinaryExpr left op right ihl ihr =>
      by_cases hand : op = .And
      · subst hand
        obtain ⟨hl, hr⟩ := Datum.and_eq_true htrue
        exact ihr (ihl h hl) hr
      · rw [fold_binary hand]
        split_ifs with hleft hright
        · cases hlit : literalAsI64 right with
          | none => exact h
          | some lit =>
              apply foldComparison_sound h
              rw [← hx, ← eval_ts_column hts hleft, ← literal_value (E := E) hlit]
              exact htrue
        · cases hlit : literalAsI64 left with
          | none => exact h
          | some lit =>
              have htrue' : E.apply op (.integer lit.toInt) (.integer z) = .boolean true := by
                rw [← hx, ← eval_ts_column hts hright, ← literal_value (E := E) hlit]
                exact htrue
              by_cases hcmp : (∃ f, op = .Other f) ∨ op = .Or
              · rcases hcmp with ⟨f, rfl⟩ | rfl <;> exact h
              · rw [not_or] at hcmp
                apply foldComparison_sound h
                rw [Engine.apply_mirrored (fun f hf => hcmp.1 ⟨f, hf⟩) hand hcmp.2]
                exact htrue'
        · exact h
  | Between expr low high negated =>
      unfold foldTsPredicate
      split_ifs with hcase
      · obtain ⟨hneg, hcolumn⟩ := Bool.and_eq_true_iff.mp hcase
        obtain rfl : negated = false := by simpa using hneg
        obtain ⟨hlow, hhigh⟩ := Datum.and_eq_true htrue
        rw [eval_ts_column hts hcolumn, hx] at hlow hhigh
        have hlower : (match literalAsI64 low with
            | some lo => bounds.tightenLower lo
            | none => bounds).Has z := by
          cases hlit : literalAsI64 low with
          | none => exact h
          | some lo =>
              rw [literal_value hlit] at hlow
              exact foldComparison_sound h hlow
        dsimp only
        cases hlit : literalAsI64 high with
        | none => exact hlower
        | some hi =>
            rw [literal_value hlit] at hhigh
            exact foldComparison_sound hlower hhigh
      · exact h

/-- A row that passes all filters has its timestamp in the window. -/
theorem ts_bounds_sound (hts : Engine.cell names ts_name row = some x)
    (hx : Datum.ofValue x = .integer z) {filters : List (Expr F)}
    (hpass : E.passes names filters row = true) : (tsBoundsFromFilters ts_name filters).Has z := by
  have hfold (bounds : TsBounds) (h : bounds.Has z) :
      (filters.foldl (fun bounds f => foldTsPredicate ts_name f bounds) bounds).Has z := by
    induction filters generalizing bounds with
    | nil => exact h
    | cons f filters ih =>
        rw [Engine.passes, List.all_cons, Bool.and_eq_true, decide_eq_true_eq] at hpass
        exact ih hpass.2 _ (foldTsPredicate_sound hts hx h hpass.1)
  exact hfold .unbounded (.unbounded z)

end Sound

end Probing.Sql
