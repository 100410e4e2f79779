import Mathlib.Data.Fintype.Basic
import Mathlib.Order.Fin.Basic
import Turma.Lib.Double
import Turma.Lib.JsString

/-! The token buckets of `usage-ledger.js`. A figure is a whole number held in a double:
`num` lets through what is a safe integer and reads anything else as zero. -/

namespace Turma.Ledger

open Turma.Lib JsString

inductive TokenKey
  | input | output | cacheWrite | cacheRead
deriving DecidableEq

def tokenKeys : List TokenKey := [.input, .output, .cacheWrite, .cacheRead]

theorem mem_tokenKeys (k : TokenKey) : k ∈ tokenKeys := by
  cases k <;> decide

abbrev Bucket := TokenKey → ℕ

/-- `Number.MAX_SAFE_INTEGER`. -/
def maxSafe : ℕ := 2 ^ 53 - 1

@[irreducible] def num (v : ℕ) : ℕ := if v ≤ maxSafe then v else 0

def blankBucket : Bucket := fun _ => 0

def bucketOf (b : Bucket) : Bucket := fun k => num (b k)

def addBucket (dst src : Bucket) : Bucket := fun k => fl (dst k + num (src k))

def raiseBucket (dst src : Bucket) : Bucket :=
  fun k => if dst k < num (src k) then num (src k) else dst k

def subBucket (dst src : Bucket) : Bucket := fun k => fl (dst k - num (src k))

def bucketTokens (b : Bucket) : ℕ := flSum 0 (tokenKeys.map fun k => num (b k))

def bucketExceeds (a b : Bucket) : Bool := tokenKeys.any fun k => decide (num (b k) < num (a k))

/-- The digits of a string that `isoDay` accepts, as one number: eight of them, whatever
they say, and the order of the numbers is the order of the strings. -/
abbrev IsoDay := Fin 100000000

instance : LawfulBEq IsoDay := inferInstance

instance neZeroDays : NeZero 100000000 := ⟨by decide⟩

def Safe (b : Bucket) : Prop := ∀ k, b k ≤ maxSafe

theorem num_of_le {v : ℕ} (h : v ≤ maxSafe) : num v = v := by
  rw [num, if_pos h]

theorem num_of_gt {v : ℕ} (h : maxSafe < v) : num v = 0 := by
  rw [num, if_neg (not_le.mpr h)]

theorem num_le (v : ℕ) : num v ≤ maxSafe := by
  unfold num
  split_ifs with h
  · exact h
  · exact Nat.zero_le _

theorem safe_bucketOf (b : Bucket) : Safe (bucketOf b) := fun k => num_le (b k)

theorem bucketOf_of_safe {b : Bucket} (h : Safe b) : bucketOf b = b :=
  funext fun k => num_of_le (h k)

theorem raiseBucket_apply (dst src : Bucket) (k : TokenKey) :
    raiseBucket dst src k = max (dst k) (num (src k)) := by
  unfold raiseBucket
  split_ifs with h
  · exact (max_eq_right h.le).symm
  · exact (max_eq_left (not_lt.mp h)).symm

theorem safe_raiseBucket {dst src : Bucket} (h : Safe dst) : Safe (raiseBucket dst src) := by
  intro k
  rw [raiseBucket_apply]
  exact max_le (h k) (num_le _)

theorem safe_blankBucket : Safe blankBucket := fun _ => Nat.zero_le _

theorem subBucket_apply {dst : Bucket} {k : TokenKey} (h : dst k ≤ maxSafe) (src : Bucket) :
    subBucket dst src k = dst k - num (src k) := by
  apply fl_of_le
  unfold maxSafe at h
  omega

/-- `num` of a rounded sum does not see the rounding. -/
theorem num_flSum (a : ℕ) (xs : List ℕ) : num (flSum a xs) = num (a + xs.sum) := by
  have hmin := min_le_flSum a xs
  rcases Nat.lt_or_ge (a + xs.sum) (2 ^ 53) with h | h
  · rw [flSum_of_le h.le]
  · have hmax : maxSafe < 2 ^ 53 := by decide
    rw [num_of_gt (by omega), num_of_gt (by omega)]

/-- A loop of `addBucket`s is the rounded sum, key by key. -/
theorem foldl_addBucket (bs : List Bucket) (dst : Bucket) (k : TokenKey) :
    bs.foldl addBucket dst k = flSum (dst k) (bs.map fun b => num (b k)) := by
  induction bs generalizing dst with
  | nil => rfl
  | cons b bs ih =>
    rw [List.foldl_cons, ih]
    rfl

/-! A stored series of `usage-ledger.js` and what is done to it: a report absorbed, days
folded into `pre`, the model breakdown cut, a round trip through the file, a merge with
another series. -/

structure Limits where
  ledgerDays : ℕ
  ledgerRepos : ℕ
  ledgerHosts : ℕ
  ledgerModels : ℕ
  ledgerNameMax : ℕ
  ledgerMax : ℕ

/-- What `usageOf` makes of a report. Its figures have been through `num`. -/
structure Usage where
  totals : Bucket
  days : OrdMap IsoDay Bucket
  models : OrdMap JsString Bucket
  subagent : Option Bucket
  sessions : ℕ
  lastActivity : Option JsString
  totals_safe : Safe totals
  days_safe : ∀ d b, days.get? d = some b → Safe b

/-- A usage block as the record carries it. A figure that is no safe integer is any number
past `maxSafe`. -/
structure Report where
  totals : Bucket
  days : OrdMap IsoDay Bucket
  models : List (JsString × Bucket)
  subagent : Option Bucket
  sessions : ℕ
  lastActivity : Option JsString

/-- An agent-supplied name, cut on code points; `__proto__` is refused. -/
def boundedName (L : Limits) (v : JsString) : JsString :=
  let out := v.take L.ledgerNameMax
  if out = ofString "__proto__" then [] else out

def usageOf (L : Limits) (r : Report) : Usage where
  totals := bucketOf r.totals
  days := r.days.mapValues bucketOf
  models := r.models.foldl (fun m e =>
    if boundedName L e.1 = [] then m
    else m.upsert (boundedName L e.1) fun _ => bucketOf e.2) .empty
  subagent := r.subagent.map bucketOf
  sessions := num r.sessions
  lastActivity := r.lastActivity
  totals_safe := safe_bucketOf r.totals
  days_safe := by
    intro d b hb
    rw [OrdMap.get?_mapValues, Option.map_eq_some_iff] at hb
    obtain ⟨b', -, rfl⟩ := hb
    exact safe_bucketOf b'

structure Series where
  pre : Bucket
  days : OrdMap IsoDay Bucket
  models : OrdMap JsString Bucket
  cutoff : Option IsoDay
  subagent : Option Bucket
  sessions : ℕ
  lastActivity : Option JsString

def blankSeries : Series := ⟨blankBucket, .empty, .empty, none, none, 0, none⟩

/-- `if (!cutoff || d > cutoff) cutoff = d`. -/
def later (cutoff : Option IsoDay) (d : IsoDay) : Option IsoDay :=
  match cutoff with
  | none => some d
  | some c => if c < d then some d else some c

def foldDay (s : Series) (d : IsoDay) : Series :=
  { s with
    pre := match s.days.get? d with
      | some b => addBucket s.pre b
      | none => s.pre
    days := s.days.erase d
    cutoff := later s.cutoff d }

def oldest (s : Series) (n : ℕ) : List IsoDay :=
  (s.days.keys.insertionSort fun a b => a ≤ b).take n

def foldOldest (n : ℕ) (s : Series) : Series := (oldest s n).foldl foldDay s

def trimDays (L : Limits) (s : Series) : Series := foldOldest (s.days.size - L.ledgerDays) s

def halveDays (s : Series) : Series := foldOldest (max 1 ((s.days.size + 1) / 2)) s

def dropModels (gone : List JsString) (s : Series) : Series :=
  { s with models := s.models.filterKeys fun m => m ∉ gone }

def modelTokens (s : Series) (m : JsString) : ℕ :=
  bucketTokens ((s.models.get? m).getD blankBucket)

def trimModels (L : Limits) (s : Series) : Series :=
  dropModels (((ownKeys s.models).insertionSort
    fun a b => modelTokens s b ≤ modelTokens s a).drop L.ledgerModels) s

def halveModels (s : Series) : Series :=
  dropModels (((ownKeys s.models).insertionSort
    fun a b => modelTokens s a ≤ modelTokens s b).take (max 1 ((s.models.size + 1) / 2))) s

def reportedDays (u : Usage) : Bucket := u.days.values.foldl addBucket blankBucket

/-- The days held that the report has stopped mentioning. -/
def heldDays (s : Series) (u : Usage) : OrdMap IsoDay Bucket :=
  s.days.filterKeys fun d => d ∉ u.days.keys

def held (s : Series) (u : Usage) : Bucket := (heldDays s u).values.foldl addBucket blankBucket

/-- The report's spend older than its days, less what is held of it by day. -/
def preR (s : Series) (u : Usage) : Bucket :=
  subBucket (subBucket (bucketOf u.totals) (reportedDays u)) (held s u)

/-- `s.cutoff && d <= s.cutoff`. -/
def inPre (cutoff : Option IsoDay) (d : IsoDay) : Bool :=
  match cutoff with
  | none => false
  | some c => decide (d ≤ c)

def openDays (cutoff : Option IsoDay) (u : Usage) : OrdMap IsoDay Bucket :=
  u.days.filterKeys fun d => !inPre cutoff d

def raised (cur : Option Bucket) (b : Bucket) : Bucket := raiseBucket (cur.getD blankBucket) b

def raiseDays (s : Series) (u : Usage) : OrdMap IsoDay Bucket :=
  OrdMap.mergeWith raised s.days (openDays s.cutoff u)

/-- The names a plain object inherits: `models[m]` is truthy for them and holds no bucket. -/
def inherited : List JsString :=
  ["constructor", "__defineGetter__", "__defineSetter__", "hasOwnProperty", "__lookupGetter__",
    "__lookupSetter__", "isPrototypeOf", "propertyIsEnumerable", "toString", "valueOf",
    "__proto__", "toLocaleString"].map ofString

/-- `raiseBucket(dst[m] || (dst[m] = blankBucket()), b)` for each model of `src`. -/
def raiseModels (dst src : OrdMap JsString Bucket) : OrdMap JsString Bucket :=
  OrdMap.mergeWith raised dst (src.filterKeys fun m => m ∈ dst.keys ∨ m ∉ inherited)

def raiseSubagent (cur src : Option Bucket) : Option Bucket :=
  match src with
  | none => cur
  | some b => some (raised cur b)

/-- `if (src && (!cur || src > cur)) cur = src`, the empty string counting as none. -/
def latestActivity (cur src : Option JsString) : Option JsString :=
  match src with
  | none => cur
  | some a =>
    if a = [] then cur
    else match cur with
      | none => some a
      | some c => if c = [] ∨ c.before a = true then some a else some c

/-- The part of `absorb` that raises `pre` and the days. -/
def raise (s : Series) (u : Usage) : Series :=
  { s with pre := raiseBucket s.pre (preR s u), days := raiseDays s u }

def absorb (L : Limits) (s : Series) (u : Usage) : Series :=
  let s := trimDays L (raise s u)
  let s := { s with
    models := raiseModels s.models u.models
    subagent := raiseSubagent s.subagent u.subagent }
  let s := trimModels L s
  { s with
    sessions := if s.sessions < u.sessions then u.sessions else s.sessions
    lastActivity := latestActivity s.lastActivity u.lastActivity }

/-- What `absorb` returns: the store holds something the report did not. -/
def augments (s : Series) (u : Usage) : Bool :=
  let exceeds (cur : Option Bucket) (b : Bucket) : Bool := bucketExceeds (cur.getD blankBucket) b
  !(heldDays s u).keys.isEmpty || bucketExceeds s.pre (preR s u) ||
    (openDays s.cutoff u).entries.any (fun e => exceeds (s.days.get? e.1) e.2) ||
    u.models.entries.any (fun e => exceeds (s.models.get? e.1) e.2) ||
    (raiseModels s.models u.models).keys.any (fun m => decide (m ∉ u.models.keys ++ inherited)) ||
    (match u.subagent with
      | none => false
      | some b => exceeds s.subagent b) ||
    decide (u.sessions < s.sessions)

def grew (s : Series) (u : Usage) : Bool :=
  (openDays s.cutoff u).keys.any (fun d => decide (d ∉ s.days.keys)) ||
    u.models.keys.any fun m => decide (m ∉ s.models.keys ++ inherited)

def seriesTotals (s : Series) : Bucket := s.days.values.foldl addBucket (bucketOf s.pre)

/-- What `serialize` wrote for `s`, read back and coerced. -/
def reread (L : Limits) (s : Series) : Series :=
  { s with
    pre := bucketOf s.pre
    days := s.days.mapValues bucketOf
    models := s.models.entries.foldl (fun m e =>
      if boundedName L e.1 = [] then m
      else m.upsert (boundedName L e.1) fun _ => bucketOf e.2) .empty
    subagent := s.subagent.map bucketOf
    sessions := num s.sessions }

/-- `seriesOf` of a series from the ledger's own file. -/
def seriesOf (L : Limits) (s : Series) : Series := trimDays L (trimModels L (reread L s))

def cloneSeries (s : Series) : Series :=
  { s with
    pre := bucketOf s.pre
    days := s.days.mapValues bucketOf
    models := s.models.mapValues bucketOf
    subagent := s.subagent.map bucketOf }

def laterCutoff (dst src : Option IsoDay) : Option IsoDay :=
  match src with
  | none => dst
  | some c => later dst c

def mergeSeries (L : Limits) (dst src : Series) : Series :=
  let s := { dst with
    cutoff := laterCutoff dst.cutoff src.cutoff
    pre := raiseBucket dst.pre src.pre }
  let s := { s with
    days := (OrdMap.mergeWith raised s.days src.days).filterKeys fun d => !inPre s.cutoff d }
  let s := { s with
    models := raiseModels s.models src.models
    subagent := raiseSubagent s.subagent src.subagent
    sessions := if s.sessions < src.sessions then src.sessions else s.sessions
    lastActivity := latestActivity s.lastActivity src.lastActivity }
  trimDays L (trimModels L s)

end Turma.Ledger
