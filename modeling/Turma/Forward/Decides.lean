import Turma.Forward.Proof

/-! What a replica makes of a hop proof, and what it decides. -/

namespace Turma.Forward

open Turma.Lib List

theorem verifyHops_hops (hmac : Text → Text) (replicaId : Text) (seen : OrdMap Text ℕ) (t : ℕ)
    (req : Req) : (verifyHops hmac replicaId seen t req).1.hops = [] ∨
      ∃ v stamp nonce, checkMac hmac req = some (v, stamp, nonce) ∧
        (verifyHops hmac replicaId seen t req).1.hops = hopList v := by
  unfold verifyHops
  cases hmacs : checkMac hmac req with
  | none => exact Or.inl rfl
  | some proof =>
    obtain ⟨v, stamp, nonce⟩ := proof
    dsimp only
    split_ifs
    · exact Or.inl rfl
    · exact Or.inl rfl
    · exact Or.inl rfl
    · exact Or.inl rfl
    · exact Or.inr ⟨v, stamp, nonce, rfl, rfl⟩

variable {seen : OrdMap Text ℕ} {k : Text}

theorem mem_keys_sweep {t : ℕ} (h : k ∈ (sweep seen t).keys) :
    k ∈ seen.keys :=
  ((dropWhile_sublist _).map _).mem h

theorem mem_keys_rescan {t : ℕ} (h : k ∈ (rescan seen t).keys) :
    k ∈ seen.keys := by
  unfold rescan at h
  split_ifs at h
  · exact (filter_sublist.map _).mem h
  · exact h

/-- Only the nonce of the request itself is new to the cache. -/
theorem verifyHops_seen {hmac : Text → Text} {replicaId : Text} {t : ℕ}
    {req : Req} (h : k ∈ (verifyHops hmac replicaId seen t req).2.keys) :
    k ∈ seen.keys ∨ ∃ v stamp, checkMac hmac req = some (v, stamp, k) := by
  unfold verifyHops at h
  cases hmacs : checkMac hmac req with
  | none =>
    rw [hmacs] at h
    exact Or.inl h
  | some proof =>
    obtain ⟨v, stamp, nonce⟩ := proof
    rw [hmacs] at h
    dsimp only at h
    split_ifs at h
    · exact Or.inl h
    · exact Or.inl h
    · exact Or.inl h
    · exact Or.inl (mem_keys_sweep (mem_keys_rescan h))
    · rcases OrdMap.mem_keys_upsert.mp h with rfl | h
      · exact Or.inr ⟨v, stamp, rfl⟩
      · exact Or.inl (mem_keys_sweep (mem_keys_rescan h))

theorem size_sweep_le (seen : OrdMap Text ℕ) (t : ℕ) : (sweep seen t).size ≤ seen.size :=
  (dropWhile_sublist _).length_le

theorem size_rescan_le (seen : OrdMap Text ℕ) (t : ℕ) : (rescan seen t).size ≤ seen.size := by
  unfold rescan
  split_ifs
  · exact length_filter_le _ _
  · exact le_refl _

/-- A proof in time and new to the cache counts, unless it is the replica's own come back. -/
theorem verifyHops_fits {hmac : Text → Text} (replicaId : Text) {t : ℕ}
    {req : Req} {v nonce : Text} {stamp : ℕ} (hfits : checkMac hmac req = some (v, stamp, nonce))
    (htime : t ≤ stamp + proofMaxAgeMs ∧ stamp ≤ t + proofMaxAgeMs) (hnew : nonce ∉ seen.keys)
    (hroom : seen.size < seenProofsMax) :
    (verifyHops hmac replicaId seen t req).1 =
      if (hopList v).getLast? = some replicaId then ⟨[], some nonce⟩ else ⟨hopList v, none⟩ := by
  have hsize : ¬ seenProofsMax ≤ (rescan (sweep seen t) t).size :=
    Nat.not_le.mpr (((size_rescan_le _ t).trans (size_sweep_le seen t)).trans_lt hroom)
  unfold verifyHops
  rw [hfits]
  dsimp only
  rw [if_neg (by omega)]
  split_ifs with hloop hseen
  · rfl
  · rw [OrdMap.get?_eq_none.mpr hnew] at hseen
    cases hseen
  · rfl

namespace Replica

variable {hmac : Text → Text} {cfg : Config} {r : Replica}

/-- What is left alone by all that only looks for the leader. -/
def Alike (r r' : Replica) : Prop :=
  r'.leader = r.leader ∧ r'.seenProofs = r.seenProofs ∧ r'.draining = r.draining

theorem Alike.refl (r : Replica) : Alike r r := ⟨rfl, rfl, rfl⟩

theorem alike_isOwnAddr (cfg : Config) (r : Replica) (t : ℕ) (addr : Text) :
    Alike r (r.isOwnAddr cfg t addr).2 := by
  unfold isOwnAddr
  split_ifs
  · exact Alike.refl r
  · cases r.ownAliases.get? addr with
    | none => exact Alike.refl r
    | some expiry =>
      dsimp only
      split_ifs <;> exact ⟨rfl, rfl, rfl⟩

theorem alike_learnAlias (cfg : Config) (r : Replica) (t : ℕ) (addr : Text) :
    Alike r (r.learnAlias cfg t addr) := by
  have hown := alike_isOwnAddr cfg r t addr
  unfold learnAlias
  split
  · next r' heq =>
    rw [heq] at hown
    exact hown
  · next r' heq =>
    rw [heq] at hown
    split_ifs
    · exact hown
    · exact hown

/-- What `decide` looks at past the loop: a request is forwarded only to a leader that it has not
been at, by a replica that it has not been at, with room in its list. -/
theorem decideLeader_spec (cfg : Config) (r : Replica) (reading : Reading) (hops : List Text) :
    Alike r (r.decideLeader cfg reading hops).2 ∧
      (∀ addr, (r.decideLeader cfg reading hops).1 = .forward addr → ∃ e, r.leader = some e ∧
        e.replica ∉ hops ∧ cfg.replicaId ∉ hops ∧ hops.length < maxHops) ∧
      ∀ nonce, (r.decideLeader cfg reading hops).1 ≠ .loop nonce := by
  unfold decideLeader
  cases hleader : r.leader with
  | none => exact ⟨⟨rfl, rfl, rfl⟩, fun _ h => absurd h (by simp), fun _ => by simp⟩
  | some e =>
    dsimp only
    split
    · exact ⟨⟨rfl, rfl, rfl⟩, fun _ h => absurd h (by simp), fun _ => by simp⟩
    split
    · exact ⟨⟨rfl, rfl, rfl⟩, fun _ h => absurd h (by simp), fun _ => by simp⟩
    cases e.addr with
    | none => exact ⟨⟨rfl, rfl, rfl⟩, fun _ h => absurd h (by simp), fun _ => by simp⟩
    | some addr =>
      dsimp only
      have hown := alike_isOwnAddr cfg r reading.now addr
      split
      · next r' heq =>
        rw [heq] at hown
        exact ⟨hown, fun _ h => absurd h (by simp), fun _ => by simp⟩
      · next r' heq =>
        rw [heq] at hown
        split_ifs with hpassed
        · exact ⟨hown, fun _ h => absurd h (by simp), fun _ => by simp⟩
        rw [not_or, not_or, Nat.not_le] at hpassed
        cases r'.unreachableUntil.get? addr with
        | none => exact ⟨hown, fun _ _ => ⟨e, rfl, hpassed⟩, fun _ => by simp⟩
        | some expiry =>
          dsimp only
          split_ifs
          · exact ⟨hown, fun _ h => absurd h (by simp), fun _ => by simp⟩
          · exact ⟨hown, fun _ _ => ⟨e, rfl, hpassed⟩, fun _ => by simp⟩

/-- A replica that may not serve, for a path that is not its own. -/
structure Decides (hmac : Text → Text) (cfg : Config) (r : Replica) (reading : Reading) (req : Req)
    (cached : Option Proof) (p : Proof) (d : Decision) (r' : Replica) : Prop where
  proof : (r.proofOf hmac cfg reading.now req cached).1 = p
  enabled : cfg.enabled = true ∧ localPath req.url = false ∧ reading.canServe = false
  seen : r'.seenProofs = (r.proofOf hmac cfg reading.now req cached).2.seenProofs
  leader : r'.leader = r.leader
  forwards : ∀ addr, d = .forward addr → ∃ e, r.leader = some e ∧ e.replica ∉ p.hops ∧
    cfg.replicaId ∉ p.hops ∧ p.hops.length < maxHops
  loop : ∀ nonce, d = .loop nonce ↔ p.loop = some nonce

theorem leader_proofOf (t : ℕ) (req : Req) (cached : Option Proof) :
    (r.proofOf hmac cfg t req cached).2.leader = r.leader := by
  cases cached <;> rfl

theorem decideOn_spec (hmac : Text → Text) (cfg : Config) (r : Replica) (reading : Reading)
    (req : Req) (cached : Option Proof) :
    (r.decideOn hmac cfg reading req cached = (.serve, r, cached) ∧
      (cfg.enabled = false ∨ localPath req.url = true ∨ reading.canServe = true)) ∨
    ∃ p d r', r.decideOn hmac cfg reading req cached = (d, r', some p) ∧
      Decides hmac cfg r reading req cached p d r' := by
  unfold decideOn
  by_cases hserve : cfg.enabled = false ∨ localPath req.url = true ∨ reading.canServe = true
  · rw [if_pos hserve]
    exact Or.inl ⟨rfl, hserve⟩
  rw [if_neg hserve]
  rw [not_or, not_or, Bool.not_eq_false, Bool.not_eq_true, Bool.not_eq_true] at hserve
  have hleader := @leader_proofOf hmac cfg r reading.now req cached
  right
  generalize hout : r.proofOf hmac cfg reading.now req cached = out at hleader
  obtain ⟨p, r₁⟩ := out
  dsimp only
  cases hloop : p.loop with
  | some nonce =>
    refine ⟨p, _, _, rfl, by rw [hout], hserve, by rw [hout], hleader, fun _ h => absurd h (by simp), ?_⟩
    intro nonce'
    rw [hloop]
    exact ⟨fun h => congrArg some (Decision.loop.inj h), fun h => congrArg Decision.loop (Option.some.inj h)⟩
  | none =>
    split_ifs
    · refine ⟨p, _, _, rfl, by rw [hout], hserve, by rw [hout], hleader, fun _ h => absurd h (by simp), ?_⟩
      intro nonce
      rw [hloop]
      exact ⟨nofun, nofun⟩
    · obtain ⟨⟨halike, hseen, _⟩, hforward, hnot⟩ := decideLeader_spec cfg r₁ reading p.hops
      refine ⟨p, _, _, rfl, by rw [hout], hserve, by rw [hout]; exact hseen, halike.trans hleader, ?_, ?_⟩
      · intro addr h
        rw [← hleader]
        exact hforward addr h
      · intro nonce
        rw [hloop]
        exact ⟨fun h => absurd h (hnot nonce), nofun⟩

end Replica

end Turma.Forward
