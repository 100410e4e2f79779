import Turma.Ledger.Entry
import Turma.Lib.Forest
import Turma.Lib.JsOrder

/-! The names that one machine has gone by. `setHostAliases` joins the names of every rename it
accepts and `foldKey` is the smallest name of the group, led by the tenant. -/

namespace Turma.Ledger

open Turma.Lib Relation List OrdMap JsString

theorem findFrom_eq (parent : OrdMap JsString JsString) (n : ℕ) (x : JsString) :
    findFrom parent n x = climb parent.get? n x := by
  induction n generalizing x with
  | zero => rfl
  | succ n ih =>
    rw [findFrom, climb]
    cases parent.get? x with
    | none => rfl
    | some y =>
      dsimp only
      rw [ih]

/-- A parent is a name of the map, and no larger than its child. -/
def Descends (parent : OrdMap JsString JsString) : Prop :=
  ∀ x y, parent.get? x = some y → y ∈ parent.keys ∧ (y = x ∨ y.before x = true)

theorem find_rootOf {parent : OrdMap JsString JsString} (h : Descends parent) (x : JsString) :
    RootOf parent.get? x (find parent x) := by
  rw [find, findFrom_eq]
  refine climb_rootOf parent.get? JsString.before_irrefl (fun _ _ _ => JsString.before_trans) h ?_
  rw [← length_keys]
  exact countP_le_length

/-- What the loop of `setHostAliases` has made of the renames that `linked` gathers. -/
structure Grouped (linked : JsString → JsString → Prop) (parent : OrdMap JsString JsString) :
    Prop where
  descends : Descends parent
  formed : ∀ x y, parent.get? x = some y → y.Formed
  represents : Represents linked JsString.before (find parent)

theorem Grouped.empty : Grouped (fun _ _ => False) .empty where
  descends _ _ h := absurd h nofun
  formed _ _ h := absurd h nofun
  represents := ⟨fun x => .refl x, fun _ _ => False.elim, fun _ => Or.inl rfl⟩

def linkRoots (parent : OrdMap JsString JsString) (ra rb winner loser : JsString) :
    OrdMap JsString JsString :=
  ((parent.upsert loser fun _ => winner).upsert ra fun cur => cur.getD ra).upsert rb
    fun cur => cur.getD rb

theorem union_cases (parent : OrdMap JsString JsString) (a b : JsString) :
    find parent a = find parent b ∧ union parent a b = parent ∨
      find parent a ≠ find parent b ∧ ∃ winner loser,
        union parent a b = linkRoots parent (find parent a) (find parent b) winner loser ∧
        (find parent a = winner ∧ find parent b = loser ∧
            (find parent a).before (find parent b) = true ∨
          find parent a = loser ∧ find parent b = winner ∧
            (find parent a).before (find parent b) = false) := by
  unfold union
  by_cases heq : find parent a = find parent b
  · rw [if_pos heq]
    exact Or.inl ⟨heq, rfl⟩
  · rw [if_neg heq]
    by_cases hbefore : (find parent a).before (find parent b) = true
    · rw [if_pos hbefore]
      exact Or.inr ⟨heq, _, _, rfl, Or.inl ⟨rfl, rfl, hbefore⟩⟩
    · rw [if_neg hbefore]
      exact Or.inr ⟨heq, _, _, rfl, Or.inr ⟨rfl, rfl, Bool.eq_false_iff.mpr hbefore⟩⟩

theorem get?_linkRoots {parent : OrdMap JsString JsString} {ra rb winner loser : JsString}
    (hne : winner ≠ loser) (hroles : ra = winner ∧ rb = loser ∨ ra = loser ∧ rb = winner)
    (hroot : ∀ y, parent.get? winner = some y → y = winner) (x : JsString) :
    (linkRoots parent ra rb winner loser).get? x =
      if x = loser then some winner else if x = winner then some winner else parent.get? x := by
  have hwinner : (parent.get? winner).getD winner = winner := by
    cases hget : parent.get? winner with
    | none => rfl
    | some y => exact hroot y hget
  rcases hroles with ⟨rfl, rfl⟩ | ⟨rfl, rfl⟩ <;>
    simp only [linkRoots, get?_upsert] <;> split_ifs <;> simp_all

section

variable {linked : JsString → JsString → Prop} {parent : OrdMap JsString JsString}

theorem Grouped.find_formed (h : Grouped linked parent) {x : JsString} (hx : x.Formed) :
    (find parent x).Formed := by
  rcases (find_rootOf h.descends x).found with heq | ⟨z, hz⟩
  · rw [heq]
    exact hx
  · exact h.formed z _ hz

/-- Two different roots linked, the smaller one winning. -/
theorem Grouped.link (h : Grouped linked parent) {a b winner loser : JsString}
    (hformed : winner.Formed) (hbefore : winner.before loser = true)
    (hroles : find parent a = winner ∧ find parent b = loser ∨
      find parent a = loser ∧ find parent b = winner) :
    Grouped (fun x y => linked x y ∨ x = a ∧ y = b)
      (linkRoots parent (find parent a) (find parent b) winner loser) := by
  have hroots : (∀ y, parent.get? winner = some y → y = winner) ∧
      ∀ y, parent.get? loser = some y → y = loser := by
    rcases hroles with ⟨rfl, rfl⟩ | ⟨rfl, rfl⟩
    · exact ⟨(find_rootOf h.descends a).root, (find_rootOf h.descends b).root⟩
    · exact ⟨(find_rootOf h.descends b).root, (find_rootOf h.descends a).root⟩
  have hne : winner ≠ loser := by
    rintro rfl
    exact Bool.false_ne_true ((JsString.before_irrefl winner).symm.trans hbefore)
  have hget := get?_linkRoots hne hroles hroots.1
  have hdown : Descends (linkRoots parent (find parent a) (find parent b) winner loser) := by
    intro x y hy
    rw [hget] at hy
    have hwinner : winner ∈ (linkRoots parent (find parent a) (find parent b) winner loser).keys :=
      OrdMap.mem_keys.mpr ⟨winner, by rw [hget, if_neg hne, if_pos rfl]⟩
    split_ifs at hy with hxl hxw
    · rw [← Option.some.inj hy, hxl]
      exact ⟨hwinner, Or.inr hbefore⟩
    · rw [← Option.some.inj hy, hxw]
      exact ⟨hwinner, Or.inl rfl⟩
    · obtain ⟨hmem, hle⟩ := h.descends x y hy
      obtain ⟨z, hz⟩ := OrdMap.mem_keys.mp hmem
      refine ⟨OrdMap.mem_keys.mpr ?_, hle⟩
      rw [hget]
      split_ifs
      · exact ⟨_, rfl⟩
      · exact ⟨_, rfl⟩
      · exact ⟨z, hz⟩
  refine ⟨hdown, fun x y hy => ?_, ?_⟩
  · rw [hget] at hy
    split_ifs at hy
    · rwa [← Option.some.inj hy]
    · rwa [← Option.some.inj hy]
    · exact h.formed x y hy
  · have hfind : find (linkRoots parent (find parent a) (find parent b) winner loser) =
        fun x => if find parent x = loser then winner else find parent x := by
      funext x
      refine (find_rootOf hdown x).unique ((find_rootOf h.descends x).link hne ?_ ?_ ?_ hroots.2)
      · rw [hget, if_pos rfl]
      · intro y hy
        rw [hget, if_neg hne, if_pos rfl] at hy
        exact (Option.some.inj hy).symm
      · intro z hz
        rw [hget, if_neg hz]
        split_ifs with hzw
        · cases hgetw : parent.get? z with
          | none => exact Or.inr ⟨rfl, by rw [hzw]⟩
          | some y => exact Or.inl (by rw [hroots.1 y (hzw ▸ hgetw)])
        · exact Or.inl rfl
    rw [hfind]
    exact h.represents.merge (fun _ _ _ => JsString.before_trans) hroles hbefore

theorem Grouped.union (h : Grouped linked parent) {a b : JsString} (ha : a.Formed)
    (hb : b.Formed) : Grouped (fun x y => linked x y ∨ x = a ∧ y = b) (union parent a b) := by
  rcases union_cases parent a b with ⟨heq, hunion⟩ | ⟨hne, winner, loser, hunion, hroles⟩
  · rw [hunion]
    exact ⟨h.descends, h.formed, h.represents.skip heq⟩
  · rw [hunion]
    have hfa := h.find_formed ha
    have hfb := h.find_formed hb
    rcases hroles with ⟨hwin, hlose, hbefore⟩ | ⟨hlose, hwin, hbefore⟩
    · rw [hwin] at hfa
      rw [hwin, hlose] at hbefore
      exact h.link hfa hbefore (Or.inl ⟨hwin, hlose⟩)
    · have htotal := JsString.before_total hfa hfb hne
      rw [hbefore, hlose, hwin] at htotal
      rw [hwin] at hfb
      exact h.link hfb (htotal.resolve_left Bool.false_ne_true) (Or.inr ⟨hlose, hwin⟩)

end

def accepted (e : JsString × JsString) : Prop :=
  ¬(e.1 = [] ∨ e.2 = [] ∨ tenantOfHostKey e.1 ≠ tenantOfHostKey e.2)

instance (e : JsString × JsString) : Decidable (accepted e) :=
  inferInstanceAs (Decidable (¬_))

variable {es : List (JsString × JsString)}

section

variable (lower : JsString → JsString)

/-- An edge of the graph: an accepted rename, lower-cased. -/
def Renamed (pairs : List (JsString × JsString)) (x y : JsString) : Prop :=
  ∃ e ∈ pairs, accepted e ∧ x = lower e.1 ∧ y = lower e.2

def parentsAfter (es : List (JsString × JsString)) : OrdMap JsString JsString :=
  es.foldl (fun p e =>
    if e.1 = [] ∨ e.2 = [] ∨ tenantOfHostKey e.1 ≠ tenantOfHostKey e.2 then p
    else Ledger.union p (lower e.1) (lower e.2)) .empty

variable {lower}

theorem renamed_cons {e : JsString × JsString} {pairs : List (JsString × JsString)}
    {x y : JsString} : Renamed lower (e :: pairs) x y ↔
      accepted e ∧ x = lower e.1 ∧ y = lower e.2 ∨ Renamed lower pairs x y :=
  exists_mem_cons_iff _ _ _

theorem grouped_foldl {linked : JsString → JsString → Prop} {parent : OrdMap JsString JsString}
    {pairs : List (JsString × JsString)} (h : Grouped linked parent)
    (hpairs : ∀ e ∈ pairs, (lower e.1).Formed ∧ (lower e.2).Formed) :
    Grouped (fun x y => linked x y ∨ Renamed lower pairs x y)
      (pairs.foldl (fun p e =>
        if e.1 = [] ∨ e.2 = [] ∨ tenantOfHostKey e.1 ≠ tenantOfHostKey e.2 then p
        else Ledger.union p (lower e.1) (lower e.2)) parent) := by
  induction pairs generalizing linked parent with
  | nil => exact ⟨h.descends, h.formed, h.represents.congr fun x y => by simp [Renamed]⟩
  | cons e pairs ih =>
    obtain ⟨ha, hb⟩ := hpairs e mem_cons_self
    have hrest := fun e' he' => hpairs e' (mem_cons_of_mem e he')
    rw [foldl_cons]
    split_ifs with hrefused
    · have hih := ih h hrest
      refine ⟨hih.descends, hih.formed, hih.represents.congr fun x y => ?_⟩
      have hnot : ¬accepted e := not_not.mpr hrefused
      simp only [renamed_cons, hnot, false_and, false_or]
    · have hih := ih (h.union ha hb) hrest
      refine ⟨hih.descends, hih.formed, hih.represents.congr fun x y => ?_⟩
      have haccepted : accepted e := hrefused
      simp only [renamed_cons, haccepted, true_and, or_assoc]

/-- What is used of `toLowerCase`: a string gives a string, and only the empty one an empty
one; no other character becomes NUL. -/
structure Lowers (lower : JsString → JsString) : Prop where
  formed : ∀ s, s.Formed → (lower s).Formed
  nonempty : ∀ s, lower s = [] → s = []
  nul_free : ∀ s, CodePoint.scalar '\u0000' ∉ s → CodePoint.scalar '\u0000' ∉ lower s

theorem grouped_parents (hlower : Lowers lower)
    (hes : ∀ e ∈ es, e.1.Formed ∧ e.2.Formed) :
    Grouped (Renamed lower es) (parentsAfter lower es) := by
  have hlowered : ∀ e ∈ es, (lower e.1).Formed ∧ (lower e.2).Formed := fun e he =>
    ⟨hlower.formed _ (hes e he).1, hlower.formed _ (hes e he).2⟩
  have h := grouped_foldl Grouped.empty hlowered
  exact ⟨h.descends, h.formed, h.represents.congr fun x y => iff_of_eq (false_or _)⟩

theorem get?_roots (rep : JsString → JsString) (ks : List JsString)
    (m : OrdMap JsString JsString) (x : JsString) :
    (ks.foldl (fun roots name => if rep name = name then roots
      else roots.upsert name fun _ => rep name) m).get? x =
      if x ∈ ks ∧ rep x ≠ x then some (rep x) else m.get? x := by
  induction ks generalizing m with
  | nil => simp
  | cons k ks ih =>
    rw [foldl_cons, ih]
    by_cases hk : rep k = k
    · rw [if_pos hk]
      by_cases hx : x = k
      · subst hx
        simp [hk]
      · simp [hx]
    · rw [if_neg hk, get?_upsert]
      by_cases hx : x = k
      · subst hx
        simp [hk]
      · simp [hx]

/-- A set with the empty name has an edge at it, or is that name alone. -/
theorem connected_nil (hlower : Lowers lower) {x y : JsString}
    (h : EqvGen (Renamed lower es) x y) : x = [] ↔ y = [] := by
  induction h with
  | rel x y hxy =>
    obtain ⟨e, -, haccepted, rfl, rfl⟩ := hxy
    have h₁ : lower e.1 ≠ [] := fun hnil => haccepted (Or.inl (hlower.nonempty _ hnil))
    have h₂ : lower e.2 ≠ [] := fun hnil => haccepted (Or.inr (Or.inl (hlower.nonempty _ hnil)))
    exact iff_of_false h₁ h₂
  | refl x => exact Iff.rfl
  | symm x y _ ih => exact ih.symm
  | trans x y z _ _ ihxy ihyz => exact ihxy.trans ihyz

/-- `foldKey` is the representative of the lower-cased name, led by the tenant. -/
theorem foldKey_eq (hlower : Lowers lower) {pairs : List (JsString × JsString)}
    (hes : ∀ e ∈ staticHostAliases ++ pairs, e.1.Formed ∧ e.2.Formed) (raw : JsString) :
    foldKey lower (setHostAliases lower pairs) raw =
      if tenantOfHostKey raw = [] then find (parentsAfter lower (staticHostAliases ++ pairs)) (lower raw)
      else tenantOfHostKey raw ++ .scalar '\u0000' ::
        find (parentsAfter lower (staticHostAliases ++ pairs)) (lower raw) := by
  have hgrouped := grouped_parents hlower hes
  generalize hparent : parentsAfter lower (staticHostAliases ++ pairs) = parent at hgrouped ⊢
  have hroots : (setHostAliases lower pairs).get? (lower raw) =
      if lower raw ∈ parent.keys ∧ find parent (lower raw) ≠ lower raw
        then some (find parent (lower raw)) else none := by
    rw [← hparent]
    exact get?_roots (find (parentsAfter lower (staticHostAliases ++ pairs))) _ .empty (lower raw)
  unfold foldKey
  dsimp only
  rw [hroots]
  by_cases hin : lower raw ∈ parent.keys ∧ find parent (lower raw) ≠ lower raw
  · have hne : find parent (lower raw) ≠ [] := by
      intro hnil
      have hraw := (connected_nil hlower (hgrouped.represents.member (lower raw))).mpr hnil
      exact hin.2 (hnil.trans hraw.symm)
    rw [if_pos hin]
    dsimp only
    rw [if_neg hne]
  · have hfind : find parent (lower raw) = lower raw := by
      by_cases hmem : lower raw ∈ parent.keys
      · exact not_not.mp fun hne => hin ⟨hmem, hne⟩
      · have hhere : RootOf parent.get? (lower raw) (lower raw) := RootOf.here fun y hy =>
          absurd (OrdMap.mem_keys.mpr ⟨y, hy⟩) hmem
        exact (find_rootOf hgrouped.descends (lower raw)).unique hhere
    rw [if_neg hin, hfind]

def NulFree (s : JsString) : Prop := CodePoint.scalar '\u0000' ∉ s

instance (s : JsString) : Decidable (NulFree s) := inferInstanceAs (Decidable (_ ∉ s))

variable (lower) in
/-- What is to be said of the alias groups that `pairs` makes. -/
structure FoldsExactly (pairs : List (JsString × JsString)) : Prop where
  ends : ∀ es, es <+: staticHostAliases ++ pairs → ∀ x,
    RootOf (parentsAfter lower es).get? x (find (parentsAfter lower es) x)
  exact : ∀ a b, NulFree a → NulFree b →
    (foldKey lower (setHostAliases lower pairs) a = foldKey lower (setHostAliases lower pairs) b ↔
      tenantOfHostKey a = tenantOfHostKey b ∧
        EqvGen (Renamed lower (staticHostAliases ++ pairs)) (lower a) (lower b))
  unordered : ∀ pairs', (∀ e, e ∈ pairs' ↔ e ∈ pairs) → ∀ k,
    foldKey lower (setHostAliases lower pairs') k = foldKey lower (setHostAliases lower pairs) k
  apart : ∀ a b, NulFree a → NulFree b → tenantOfHostKey a ≠ tenantOfHostKey b →
    foldKey lower (setHostAliases lower pairs) a ≠ foldKey lower (setHostAliases lower pairs) b

variable (lower) in
/-- No untenanted name is in a set whose smallest name spells the fold of a tenant's key: the
tenant, NUL and the smallest name of the key's set. -/
def Unforged (pairs : List (JsString × JsString)) : Prop :=
  ∀ a b r, NulFree a → NulFree b → tenantOfHostKey a ≠ [] → tenantOfHostKey b = [] →
    Leads (Renamed lower (staticHostAliases ++ pairs)) JsString.before r (lower a) →
    ¬Leads (Renamed lower (staticHostAliases ++ pairs)) JsString.before
      (tenantOfHostKey a ++ .scalar '\u0000' :: r) (lower b)

theorem length_tenantOfHostKey {k : JsString} (h : tenantOfHostKey k ≠ []) :
    (tenantOfHostKey k).length = 32 := by
  unfold tenantOfHostKey at h ⊢
  split at h
  · exact absurd rfl h
  · split_ifs at h ⊢ with hhex
    · exact hhex.2.1
    · exact absurd rfl h

/-- A set of NUL-free names has a NUL-free smallest one. -/
theorem nulFree_connected (hlower : Lowers lower)
    (hes : ∀ e ∈ es, NulFree e.1 ∧ NulFree e.2) {x y : JsString}
    (h : EqvGen (Renamed lower es) x y) : NulFree x ↔ NulFree y := by
  induction h with
  | rel x y hxy =>
    obtain ⟨e, he, -, rfl, rfl⟩ := hxy
    exact iff_of_true (hlower.nul_free _ (hes e he).1) (hlower.nul_free _ (hes e he).2)
  | refl x => exact Iff.rfl
  | symm x y _ ih => exact ih.symm
  | trans x y z _ _ ihxy ihyz => exact ihxy.trans ihyz

theorem static_nulFree : ∀ e ∈ staticHostAliases, NulFree e.1 ∧ NulFree e.2 := by
  decide

theorem static_formed : ∀ e ∈ staticHostAliases, e.1.Formed ∧ e.2.Formed := by
  decide

theorem unforged_of_nulFree (hlower : Lowers lower) {pairs : List (JsString × JsString)}
    (hpairs : ∀ e ∈ pairs, NulFree e.1 ∧ NulFree e.2) : Unforged lower pairs := by
  intro a b r _ hb _ _ _ hforged
  have hes : ∀ e ∈ staticHostAliases ++ pairs, NulFree e.1 ∧ NulFree e.2 := by
    intro e he
    rcases mem_append.mp he with he | he
    · exact static_nulFree e he
    · exact hpairs e he
  have hfree := (nulFree_connected hlower hes hforged.1).mpr (hlower.nul_free b hb)
  exact hfree (mem_append_right _ mem_cons_self)

theorem foldsExactly_iff (hlower : Lowers lower) {pairs : List (JsString × JsString)}
    (hpairs : ∀ e ∈ pairs, e.1.Formed ∧ e.2.Formed) :
    (FoldsExactly lower pairs ↔ Unforged lower pairs) ∧
      ((∀ e ∈ pairs, NulFree e.1 ∧ NulFree e.2) → Unforged lower pairs) := by
  have hes : ∀ {pairs'}, (∀ e, e ∈ pairs' ↔ e ∈ pairs) →
      ∀ e ∈ staticHostAliases ++ pairs', e.1.Formed ∧ e.2.Formed := by
    intro pairs' hsame e he
    rcases mem_append.mp he with he | he
    · exact static_formed e he
    · exact hpairs e ((hsame e).mp he)
  have hgrouped := grouped_parents hlower (hes fun e => Iff.rfl)
  have hkey := foldKey_eq hlower (hes fun e => Iff.rfl)
  have hleads {r x : JsString} :
      Leads (Renamed lower (staticHostAliases ++ pairs)) JsString.before r x ↔
        r = find (parentsAfter lower (staticHostAliases ++ pairs)) x := by
    constructor
    · exact hgrouped.represents.eq_of_leads JsString.before_irrefl
        fun _ _ _ => JsString.before_trans
    · rintro rfl
      exact hgrouped.represents.leads x
  refine ⟨⟨fun h a b r ha hb hta htb hra hrb => ?_, fun h => ?_⟩, unforged_of_nulFree hlower⟩
  · refine h.apart a b ha hb (by rw [htb]; exact hta) ?_
    rw [hkey, hkey, if_neg hta, if_pos htb, ← hleads.mp hra, ← hleads.mp hrb]
  · -- a tenant's key against an untenanted one
    have hmixed : ∀ a b, NulFree a → NulFree b → tenantOfHostKey a ≠ [] → tenantOfHostKey b = [] →
        foldKey lower (setHostAliases lower pairs) a ≠
          foldKey lower (setHostAliases lower pairs) b := by
      intro a b ha hb hta htb heq
      rw [hkey, hkey, if_neg hta, if_pos htb] at heq
      exact h a b _ ha hb hta htb (hleads.mpr rfl) (hleads.mpr heq)
    have hexact : ∀ a b, NulFree a → NulFree b →
        (foldKey lower (setHostAliases lower pairs) a =
            foldKey lower (setHostAliases lower pairs) b ↔
          tenantOfHostKey a = tenantOfHostKey b ∧
            EqvGen (Renamed lower (staticHostAliases ++ pairs)) (lower a) (lower b)) := by
      intro a b ha hb
      rw [← hgrouped.represents.eq_iff]
      by_cases hta : tenantOfHostKey a = [] <;> by_cases htb : tenantOfHostKey b = []
      · rw [hkey, hkey, if_pos hta, if_pos htb, hta, htb]
        simp
      · refine iff_of_false (hmixed b a hb ha htb hta).symm fun heq => htb (heq.1 ▸ hta)
      · refine iff_of_false (hmixed a b ha hb hta htb) fun heq => hta (heq.1 ▸ htb)
      · rw [hkey, hkey, if_neg hta, if_neg htb]
        constructor
        · intro heq
          obtain ⟨htenant, hrest⟩ := append_inj heq
            ((length_tenantOfHostKey hta).trans (length_tenantOfHostKey htb).symm)
          exact ⟨htenant, (List.cons.inj hrest).2⟩
        · rintro ⟨htenant, hrep⟩
          rw [htenant, hrep]
    refine ⟨fun es hpre x => ?_, hexact, fun pairs' hsame k => ?_, fun a b ha hb hne heq => ?_⟩
    · have hformed := fun e he => hes (fun e => Iff.rfl) e (hpre.subset he)
      exact find_rootOf (grouped_parents hlower hformed).descends x
    · have hgrouped' := grouped_parents hlower (hes hsame)
      have hlinked : ∀ x y, Renamed lower (staticHostAliases ++ pairs') x y ↔
          Renamed lower (staticHostAliases ++ pairs) x y := by
        intro x y
        simp only [Renamed, mem_append, hsame]
      have hrep : find (parentsAfter lower (staticHostAliases ++ pairs')) (lower k) =
          find (parentsAfter lower (staticHostAliases ++ pairs)) (lower k) :=
        hleads.mp ((hgrouped'.represents.congr hlinked).leads (lower k))
      rw [hkey, foldKey_eq hlower (hes hsame), hrep]
    · exact hne ((hexact a b ha hb).mp heq).1

end

/-- `toLowerCase` on ASCII. -/
def asciiLower (s : JsString) : JsString :=
  s.map fun c => match c with
    | .scalar c => .scalar (if 'A' ≤ c ∧ c ≤ 'Z' then Char.ofNat (c.toNat + 32) else c)
    | .lone u => .lone u

theorem lowers_asciiLower : Lowers asciiLower where
  formed s hs := by
    refine isChain_map _ |>.mpr (hs.imp fun a b hab => ?_)
    cases a <;> cases b <;> exact hab
  nonempty s hs := map_eq_nil_iff.mp hs
  nul_free s hs hmem := by
    obtain ⟨c, hc, heq⟩ := mem_map.mp hmem
    cases c with
    | lone u => exact absurd heq nofun
    | scalar c =>
      simp only [CodePoint.scalar.injEq] at heq
      split_ifs at heq with hupper
      · have hle : c.toNat ≤ 90 := hupper.2
        have hnat : (Char.ofNat (c.toNat + 32)).toNat = c.toNat + 32 := by
          rw [Char.ofNat, dif_pos (Or.inl (by omega))]
          rfl
        rw [heq] at hnat
        exact absurd hnat.symm (Nat.succ_ne_zero _)
      · rw [heq] at hc
        exact hs hc

theorem foldsExactly_iff_renamed :
    (FoldsExactly asciiLower [(ofString "lx", ofString "LA")] ↔
        Unforged asciiLower [(ofString "lx", ofString "LA")]) ∧
      ((∀ e ∈ [(ofString "lx", ofString "LA")], NulFree e.1 ∧ NulFree e.2) →
        Unforged asciiLower [(ofString "lx", ofString "LA")]) :=
  foldsExactly_iff lowers_asciiLower (by decide)

def tenantA : String := "a000000000000000000000000000000b"

/-- A new name of the untenanted host `z`: what the fold of `desk` in tenant `a0…0b` spells, the
tenant's id at the end in capitals. -/
def forgedRename : JsString × JsString :=
  (ofString "z",
    ofString tenantA ++ .scalar '\u0000' ::
      ofString "desk@A000000000000000000000000000000B")

/-- One tenant's key and an untenanted one fold together. -/
theorem forgedRename_folds :
    NulFree (ofString "z") ∧ NulFree (ofString ("desk@" ++ tenantA)) ∧
      tenantOfHostKey (ofString "z") = [] ∧
      tenantOfHostKey (ofString ("desk@" ++ tenantA)) = ofString tenantA ∧
      foldKey asciiLower (setHostAliases asciiLower [forgedRename]) (ofString "z") =
        foldKey asciiLower (setHostAliases asciiLower [forgedRename])
          (ofString ("desk@" ++ tenantA)) := by
  decide

end Turma.Ledger
