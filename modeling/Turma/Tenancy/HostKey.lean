import Turma.Lib.JsString

/-! The host keys of tenants: `<device>@<32 hex>`. -/

namespace Turma.Tenancy

open Turma.Lib

def isHex : CodePoint → Bool
  | .scalar c => ('0' ≤ c && c ≤ '9') || ('a' ≤ c && c ≤ 'f')
  | .lone _ => false

def tenantSuffix : JsString → Bool
  | [] => false
  | c :: hex => c = .scalar '@' && hex.length = 32 && hex.all isHex

def tenantOfHostKey (key : JsString) : JsString :=
  let tail := key.drop (key.length - 33)
  if tenantSuffix tail = true then tail.drop 1 else []

def isTenantKeyOf (fromKey toKey : JsString) : Bool :=
  fromKey ≠ [] && fromKey ≠ JsString.ofString "__proto__" && tenantOfHostKey fromKey = [] &&
    fromKey.isPrefixOf toKey && tenantSuffix (toKey.drop fromKey.length)

theorem tenantSuffix_length {s : JsString} (h : tenantSuffix s = true) : s.length = 33 := by
  cases s with
  | nil => simp [tenantSuffix] at h
  | cons c hex =>
    simp only [tenantSuffix, Bool.and_eq_true, decide_eq_true_eq] at h
    simp [h.1.2]

theorem ne_of_isTenantKeyOf {fromKey toKey : JsString}
    (h : isTenantKeyOf fromKey toKey = true) : toKey ≠ fromKey := by
  rintro rfl
  simp only [isTenantKeyOf, Bool.and_eq_true] at h
  have hlength := tenantSuffix_length h.2
  simp at hlength

end Turma.Tenancy
