import Turma.Forward.Decides

/-! How many requests a hop proof is good for. The last instant at which a proof is accepted is the
first at which its nonce may be swept from the cache. -/

namespace Turma.Forward

open Turma.Lib List Option OrdMap

structure HopProof where
  list : Text
  method : Text
  target : Text
  stamp : Text
  nonce : Text
  mac : Text
deriving DecidableEq

namespace HopProof

def stampMs (p : HopProof) : ℕ := Nat.ofDigitChars 10 p.stamp 0

def fits (hmac : Text → Text) (p : HopProof) : Bool :=
  p.list ≠ [] && stampForm p.stamp && nonceForm p.nonce &&
    p.mac = hopProof hmac p.list p.method p.target p.stamp p.nonce

def foreign (replicaId : Text) (p : HopProof) : Bool := (hopList p.list).getLast? ≠ some replicaId

def inTime (p : HopProof) (t : ℕ) : Prop :=
  t ≤ p.stampMs + proofMaxAgeMs ∧ p.stampMs ≤ t + proofMaxAgeMs

instance (p : HopProof) (t : ℕ) : Decidable (p.inTime t) := inferInstanceAs (Decidable (_ ∧ _))

end HopProof

def presented (req : Req) : Option HopProof :=
  match req.forwardedBy, req.forwardAuth with
  | some v, some got =>
    match got.splitOn '.' with
    | stamp :: nonce :: rest =>
      if 1 < rest.length then none
      else some ⟨v, req.method, req.url, stamp, nonce, rest.headD []⟩
    | _ => none
  | _, _ => none

def live (seen : OrdMap Text ℕ) (t : ℕ) : ℕ := (seen.entries.filter fun e => t < e.2).length

def accepts (hmac : Text → Text) (replicaId : Text) (seen : OrdMap Text ℕ) (t : ℕ) (req : Req) :
    Bool :=
  match presented req with
  | none => false
  | some p =>
    (seen.get? p.nonce).isNone && ((verifyHops hmac replicaId seen t req).2.get? p.nonce).isSome

structure Verifier where
  clock : ℕ
  seenProofs : OrdMap Text ℕ
  accepted : List HopProof

/-- A request that comes `delay` after the one before. -/
structure Presenting where
  delay : ℕ
  req : Req

namespace Verifier

def boot : Verifier := ⟨0, .empty, []⟩

def verify (hmac : Text → Text) (replicaId : Text) (w : Verifier) (e : Presenting) : Verifier where
  clock := w.clock + e.delay
  seenProofs := (verifyHops hmac replicaId w.seenProofs (w.clock + e.delay) e.req).2
  accepted :=
    if accepts hmac replicaId w.seenProofs (w.clock + e.delay) e.req = true then
      (presented e.req).toList ++ w.accepted
    else w.accepted

/-- A valid proof of another replica, with a nonce that no accepted proof has had. -/
structure Fresh (hmac : Text → Text) (replicaId : Text) (w : Verifier) (t : ℕ) (p : HopProof) :
    Prop where
  fits : p.fits hmac = true
  foreign : p.foreign replicaId = true
  inTime : p.inTime t
  unseen : ∀ q ∈ w.accepted, q.nonce ≠ p.nonce

/-- An accepted proof comes again, at the last instant of its window, with its nonce already swept
and room in the cache. -/
def Resurrects (w : Verifier) (e : Presenting) : Prop :=
  ∃ p ∈ presented e.req, p ∈ w.accepted ∧ w.clock + e.delay = p.stampMs + proofMaxAgeMs ∧
    p.nonce ∉ w.seenProofs.keys ∧ live w.seenProofs (w.clock + e.delay) < seenProofsMax

end Verifier

theorem checkMac_presented (hmac : Text → Text) (req : Req) :
    checkMac hmac req = (presented req).bind fun p =>
      if p.fits hmac = true then some (p.list, p.stampMs, p.nonce) else none := by
  obtain ⟨method, url, forwardedBy, forwardAuth⟩ := req
  unfold checkMac presented
  cases forwardedBy with
  | none => rfl
  | some v =>
    cases forwardAuth with
    | none => rfl
    | some got =>
      dsimp only
      generalize got.splitOn '.' = parts
      rcases parts with _ | ⟨stamp, _ | ⟨nonce, rest⟩⟩
      · simp
      · simp
      · dsimp only
        by_cases hrest : 1 < rest.length
        · simp [hrest]
        · by_cases hv : v = []
          · simp [hrest, hv, HopProof.fits]
          · by_cases hs : stampForm stamp = true
            · by_cases hn : nonceForm nonce = true
              · by_cases hm : rest.headD [] = hopProof hmac v method url stamp nonce
                · rw [if_neg hv, if_neg (by simp [hrest, hs, hn]), if_neg (not_not_intro hm), if_neg hrest,
                    bind_some, if_pos (by simpa [HopProof.fits, hv, hs, hn] using hm)]
                  rfl
                · rw [if_neg hv, if_neg (by simp [hrest, hs, hn]), if_pos hm, if_neg hrest,
                    bind_some, if_neg (by simpa [HopProof.fits, hv, hs, hn] using hm)]
              · simp [hrest, hv, hn, HopProof.fits]
            · simp [hrest, hv, hs, HopProof.fits]

/-- A live nonce is swept by neither scan. -/
theorem filter_live_dropWhile (es : List (Text × ℕ)) (t : ℕ) :
    (es.dropWhile fun e => e.2 ≤ t).filter (fun e => t < e.2) = es.filter fun e => t < e.2 := by
  induction es with
  | nil => rfl
  | cons e es ih =>
    rw [dropWhile_cons]
    split_ifs with he
    · rw [ih, filter_cons_of_neg]
      simpa using he
    · rfl

theorem filter_live_rescan (seen : OrdMap Text ℕ) (t : ℕ) :
    (rescan seen t).entries.filter (fun e => t < e.2) = seen.entries.filter fun e => t < e.2 := by
  unfold rescan
  split_ifs
  · rw [List.filter_filter]
    refine filter_congr fun e _ => ?_
    simp
  · rfl

theorem filter_live (seen : OrdMap Text ℕ) (t : ℕ) :
    (rescan (sweep seen t) t).entries.filter (fun e => t < e.2) =
      seen.entries.filter fun e => t < e.2 := by
  rw [filter_live_rescan]
  exact filter_live_dropWhile _ _

theorem get?_swept {seen : OrdMap Text ℕ} {t : ℕ} {nonce : Text} {expiry : ℕ}
    (h : seen.get? nonce = some expiry) (ht : t < expiry) :
    (rescan (sweep seen t) t).get? nonce = some expiry := by
  have hmem : (nonce, expiry) ∈ seen.entries.filter fun e => t < e.2 :=
    mem_filter.mpr ⟨get?_eq_some.mp h, by simpa using ht⟩
  rw [← filter_live] at hmem
  exact get?_eq_some.mpr (mem_filter.mp hmem).1

/-- A cache is full behind both scans when it is full of live nonces. -/
theorem size_swept (seen : OrdMap Text ℕ) (t : ℕ) :
    (rescan (sweep seen t) t).size < seenProofsMax ↔ live seen t < seenProofsMax := by
  have hle : live seen t ≤ (rescan (sweep seen t) t).size := by
    rw [live, ← filter_live]
    exact length_filter_le _ _
  refine ⟨hle.trans_lt, fun hlive => ?_⟩
  by_cases hfull : seenProofsMax ≤ (sweep seen t).size
  · have hsize : (rescan (sweep seen t) t).size = live seen t := by
      rw [live, ← filter_live_dropWhile, OrdMap.size, rescan, if_pos hfull]
      refine congrArg List.length (filter_congr fun e _ => ?_)
      simp
    omega
  · rw [rescan, if_neg hfull]
    omega

structure Accepted (hmac : Text → Text) (replicaId : Text) (seen : OrdMap Text ℕ) (t : ℕ)
    (p : HopProof) : Prop where
  fits : p.fits hmac = true
  inTime : p.inTime t
  foreign : p.foreign replicaId = true
  unseen : p.nonce ∉ seen.keys
  room : live seen t < seenProofsMax

variable {hmac : Text → Text} {replicaId : Text} {seen : OrdMap Text ℕ} {t : ℕ} {req : Req}
  {p : HopProof}

theorem verifyHops_accepted (hp : presented req = some p) (h : Accepted hmac replicaId seen t p) :
    verifyHops hmac replicaId seen t req = (⟨hopList p.list, none⟩,
      (rescan (sweep seen t) t).upsert p.nonce fun _ => p.stampMs + proofMaxAgeMs) := by
  have hmacs : checkMac hmac req = some (p.list, p.stampMs, p.nonce) := by
    rw [checkMac_presented, hp, bind_some, if_pos h.fits]
  have htime := h.inTime
  rw [HopProof.inTime] at htime
  unfold verifyHops
  rw [hmacs]
  dsimp only
  rw [if_neg (by omega), if_neg (by simpa [HopProof.foreign] using h.foreign), if_neg,
    if_neg (Nat.not_le.mpr ((size_swept seen t).mpr h.room))]
  rw [get?_eq_none.mpr h.unseen]
  simp

/-- Any other proof is answered without a hop list, and no nonce is new to the cache. -/
theorem verifyHops_refused (hp : presented req = some p) (h : ¬ Accepted hmac replicaId seen t p) :
    (verifyHops hmac replicaId seen t req).1.hops = [] ∧
      ((verifyHops hmac replicaId seen t req).2 = seen ∨
        (verifyHops hmac replicaId seen t req).2 = rescan (sweep seen t) t) := by
  have hmacs := checkMac_presented hmac req
  rw [hp, bind_some] at hmacs
  unfold verifyHops
  rw [hmacs]
  by_cases hfits : p.fits hmac = true
  · rw [if_pos hfits]
    dsimp only
    split_ifs with htime hown hseen hfull
    · exact ⟨rfl, .inl rfl⟩
    · exact ⟨rfl, .inl rfl⟩
    · exact ⟨rfl, .inl rfl⟩
    · exact ⟨rfl, .inr rfl⟩
    · refine absurd ⟨hfits, ?_, by simpa [HopProof.foreign] using hown, ?_, ?_⟩ h
      · rw [HopProof.inTime]
        omega
      · rw [← get?_eq_none]
        simpa using hseen
      · exact (size_swept seen t).mp (Nat.lt_of_not_le hfull)
  · rw [if_neg hfits]
    exact ⟨rfl, .inl rfl⟩

theorem verifyHops_absent (hp : presented req = none) :
    verifyHops hmac replicaId seen t req = (noProof, seen) := by
  have hmacs := checkMac_presented hmac req
  rw [hp, bind_none] at hmacs
  unfold verifyHops
  rw [hmacs]

theorem accepts_iff (hp : presented req = some p) :
    accepts hmac replicaId seen t req = true ↔ Accepted hmac replicaId seen t p := by
  rw [accepts, hp]
  constructor
  · intro h
    by_contra hno
    simp only [Bool.and_eq_true, isNone_iff_eq_none] at h
    obtain ⟨expiry, hexpiry⟩ := isSome_iff_exists.mp h.2
    have hunseen := get?_eq_none.mp h.1
    rcases (verifyHops_refused hp hno).2 with hsame | hswept
    · rw [hsame, h.1] at hexpiry
      cases hexpiry
    · rw [hswept] at hexpiry
      exact hunseen (mem_keys_sweep (mem_keys_rescan (OrdMap.mem_keys.mpr ⟨_, hexpiry⟩)))
  · intro h
    simp [verifyHops_accepted hp h, get?_upsert, get?_eq_none.mpr h.unseen]

/-- What is in the cache stays until it expires. -/
theorem get?_verifyHops {nonce : Text} {expiry : ℕ} (h : seen.get? nonce = some expiry) :
    (verifyHops hmac replicaId seen t req).2.get? nonce = some expiry ∨ expiry ≤ t := by
  by_cases ht : t < expiry
  · left
    cases hp : presented req with
    | none => rw [verifyHops_absent hp, h]
    | some p =>
      by_cases hacc : Accepted hmac replicaId seen t p
      · have hne : nonce ≠ p.nonce := fun heq =>
          hacc.unseen (heq ▸ OrdMap.mem_keys.mpr ⟨_, h⟩)
        rw [verifyHops_accepted hp hacc, get?_upsert, if_neg hne]
        exact get?_swept h ht
      · rcases (verifyHops_refused hp hacc).2 with hsame | hswept
        · rw [hsame, h]
        · rw [hswept]
          exact get?_swept h ht
  · exact .inr (Nat.le_of_not_lt ht)

namespace Verifier

variable {w : Verifier} {e : Presenting}

/-- An accepted proof is in the cache, under an expiry that is not before the end of its window, or
that end has come. -/
structure Sound (hmac : Text → Text) (replicaId : Text) (w : Verifier) : Prop where
  nodup : w.accepted.Nodup
  valid : ∀ p ∈ w.accepted, p.fits hmac = true ∧ p.foreign replicaId = true
  held : ∀ p ∈ w.accepted,
    (∃ expiry, w.seenProofs.get? p.nonce = some expiry ∧ p.stampMs + proofMaxAgeMs ≤ expiry) ∨
      p.stampMs + proofMaxAgeMs ≤ w.clock
  known : ∀ nonce ∈ w.seenProofs.keys, ∃ p ∈ w.accepted, p.nonce = nonce

theorem sound_boot : boot.Sound hmac replicaId where
  nodup := nodup_nil
  valid _ h := absurd h not_mem_nil
  held _ h := absurd h not_mem_nil
  known _ h := absurd h not_mem_nil

theorem verify_accepted {p : HopProof} (hp : presented e.req = some p)
    (hacc : Accepted hmac replicaId w.seenProofs (w.clock + e.delay) p) :
    (w.verify hmac replicaId e).accepted = p :: w.accepted := by
  rw [verify, if_pos ((accepts_iff hp).mpr hacc), hp]
  rfl

theorem verify_refused
    (hacc : accepts hmac replicaId w.seenProofs (w.clock + e.delay) e.req ≠ true) :
    (w.verify hmac replicaId e).accepted = w.accepted := by
  rw [verify, if_neg hacc]

/-- A proof that was accepted before can be accepted at no other instant. -/
theorem Sound.resurrects (h : w.Sound hmac replicaId) {p : HopProof}
    (hp : presented e.req = some p) (hmem : p ∈ w.accepted) :
    Accepted hmac replicaId w.seenProofs (w.clock + e.delay) p ↔ w.Resurrects e := by
  constructor
  · intro hacc
    refine ⟨p, hp, hmem, ?_, hacc.unseen, hacc.room⟩
    have htime := hacc.inTime.1
    rcases h.held p hmem with ⟨expiry, hexpiry, -⟩ | hover
    · exact absurd (OrdMap.mem_keys.mpr ⟨_, hexpiry⟩) hacc.unseen
    · omega
  · rintro ⟨q, hq, -, ht, hunseen, hroom⟩
    obtain rfl : p = q := Option.some.inj (hp.symm.trans hq)
    refine ⟨(h.valid p hmem).1, ?_, (h.valid p hmem).2, hunseen, hroom⟩
    rw [HopProof.inTime]
    omega

theorem Sound.held_step (h : w.Sound hmac replicaId) {p : HopProof} (hp : p ∈ w.accepted) :
    (∃ expiry, (w.verify hmac replicaId e).seenProofs.get? p.nonce = some expiry ∧
        p.stampMs + proofMaxAgeMs ≤ expiry) ∨
      p.stampMs + proofMaxAgeMs ≤ (w.verify hmac replicaId e).clock := by
  have hclock : (w.verify hmac replicaId e).clock = w.clock + e.delay := rfl
  rcases h.held p hp with ⟨expiry, hexpiry, hle⟩ | hover
  · have hstep : (w.verify hmac replicaId e).seenProofs.get? p.nonce = some expiry ∨
        expiry ≤ w.clock + e.delay := get?_verifyHops hexpiry
    rcases hstep with hstill | hgone
    · exact .inl ⟨expiry, hstill, hle⟩
    · right
      omega
  · right
    omega

theorem Sound.verify (h : w.Sound hmac replicaId) (hok : ¬ w.Resurrects e) :
    (w.verify hmac replicaId e).Sound hmac replicaId := by
  by_cases hacc : accepts hmac replicaId w.seenProofs (w.clock + e.delay) e.req = true
  · obtain ⟨p, hp⟩ : ∃ p, presented e.req = some p := by
      cases hp : presented e.req with
      | none => simp [accepts, hp] at hacc
      | some p => exact ⟨p, rfl⟩
    have hacc := (accepts_iff hp).mp hacc
    have hseen : (w.verify hmac replicaId e).seenProofs = _ :=
      congrArg Prod.snd (verifyHops_accepted hp hacc)
    have hlist := verify_accepted hp hacc
    constructor
    · rw [hlist, nodup_cons]
      exact ⟨fun hmem => hok ((h.resurrects hp hmem).mp hacc), h.nodup⟩
    · intro q hq
      rw [hlist] at hq
      rcases mem_cons.mp hq with rfl | hq
      · exact ⟨hacc.fits, hacc.foreign⟩
      · exact h.valid q hq
    · intro q hq
      rw [hlist] at hq
      rcases mem_cons.mp hq with rfl | hq
      · refine .inl ⟨_, ?_, le_rfl⟩
        rw [hseen, get?_upsert, if_pos rfl]
      · exact h.held_step hq
    · intro nonce hnonce
      rw [hseen] at hnonce
      rw [hlist]
      rcases mem_keys_upsert.mp hnonce with rfl | hold
      · exact ⟨p, mem_cons_self, rfl⟩
      · obtain ⟨q, hq, rfl⟩ := h.known nonce (mem_keys_sweep (mem_keys_rescan hold))
        exact ⟨q, .tail _ hq, rfl⟩
  · have hlist := verify_refused hacc
    constructor
    · rw [hlist]
      exact h.nodup
    · rw [hlist]
      exact h.valid
    · rw [hlist]
      exact fun q hq => h.held_step hq
    · intro nonce hnonce
      rw [hlist]
      refine h.known nonce ?_
      cases hp : presented e.req with
      | none =>
        rw [Verifier.verify, verifyHops_absent hp] at hnonce
        exact hnonce
      | some p =>
        rcases (verifyHops_refused hp fun hno => hacc ((accepts_iff hp).mpr hno)).2 with hsame | hswept
        · rw [Verifier.verify, hsame] at hnonce
          exact hnonce
        · rw [Verifier.verify, hswept] at hnonce
          exact mem_keys_sweep (mem_keys_rescan hnonce)

end Verifier

end Turma.Forward
