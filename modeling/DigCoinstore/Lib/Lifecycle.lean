import Mathlib.Order.Lattice
import Mathlib.Tactic.Common

/-!
# Records with a birth and a death

A state maps ids to records; a record has a time of birth and, once dead, a time of death.
`Later t m m'`: `m'` comes from `m` by events after time `t`. Cutting `m'` back to `t` drops what
was born later and revives what died later; when all events of `m` are by `t` this undoes the
later ones, up to what reviving does to a record (`cut_cases`).
-/

namespace Lifecycle

variable {Id R T : Type*} [LinearOrder T]

/-- How a record shows its times, and the record without its death. -/
structure Life (R T : Type*) where
  birth : R → T
  death : R → Option T
  alive : R → R
  birth_alive : ∀ r, birth (alive r) = birth r

variable (L : Life R T)

/-- All events of `m` happened by time `t`. -/
structure Within (t : T) (m : Id → Option R) : Prop where
  birth_le : ∀ {id r}, m id = some r → L.birth r ≤ t
  death_le : ∀ {id r d}, m id = some r → L.death r = some d → d ≤ t

/-- `r'` is the record `r` after it died later than `t`. -/
def DiedAfter (t : T) (r r' : R) : Prop :=
  L.death r = none ∧ L.alive r' = r ∧ ∃ d, L.death r' = some d ∧ t < d

variable {L} in
theorem DiedAfter.birth_eq {t : T} {r r' : R} (h : DiedAfter L t r r') : L.birth r' = L.birth r := by
  rw [← h.2.1, L.birth_alive]

/-- `m'` comes from `m` by births and deaths after `t`. -/
structure Later (t : T) (m m' : Id → Option R) : Prop where
  kept : ∀ {id r}, m id = some r → ∃ r', m' id = some r' ∧ (r' = r ∨ DiedAfter L t r r')
  born : ∀ {id r'}, m id = none → m' id = some r' → t < L.birth r'

/-- Cut a state back to time `t`. -/
def cut (revive : R → R) (t : T) (m : Id → Option R) (id : Id) : Option R :=
  match m id with
  | none => none
  | some r =>
    if t < L.birth r then none
    else
      match L.death r with
      | none => some r
      | some d => if t < d then some (revive r) else some r

namespace Later

variable {L} {t : T} {m m' m'' : Id → Option R}

theorem refl (t : T) (m : Id → Option R) : Later L t m m :=
  ⟨fun h => ⟨_, h, .inl rfl⟩, fun h h' => by simp [h] at h'⟩

theorem mono {t' : T} (h : Later L t m m') (ht : t' ≤ t) : Later L t' m m' := by
  refine ⟨fun hr => ?_, fun hnone hr' => lt_of_le_of_lt ht (h.born hnone hr')⟩
  obtain ⟨r', hr', rfl | ⟨hd, ha, d, hd', hlt⟩⟩ := h.kept hr
  · exact ⟨r', hr', .inl rfl⟩
  · exact ⟨r', hr', .inr ⟨hd, ha, d, hd', lt_of_le_of_lt ht hlt⟩⟩

theorem trans (h : Later L t m m') (h' : Later L t m' m'') : Later L t m m'' := by
  constructor
  · intro id r hr
    obtain ⟨r', hr', heq⟩ := h.kept hr
    obtain ⟨r'', hr'', heq'⟩ := h'.kept hr'
    refine ⟨r'', hr'', ?_⟩
    rcases heq with rfl | ⟨hd, ha, d, hd', hlt⟩
    · exact heq'
    · rcases heq' with rfl | ⟨hnone, _⟩
      · exact .inr ⟨hd, ha, d, hd', hlt⟩
      · simp [hd'] at hnone
  · intro id r'' hnone hr''
    cases hm' : m' id with
    | none => exact h'.born hm' hr''
    | some r' =>
      obtain ⟨r, hr, heq⟩ := h'.kept hm'
      obtain rfl : r = r'' := by simpa [hr] using hr''
      have hlt := h.born hnone hm'
      rcases heq with rfl | hd
      · exact hlt
      · rwa [hd.birth_eq]

end Later

variable {L} {t : T} {m m' : Id → Option R} {revive : R → R}

/-- **Cutting back later events**: an id is unknown before and after, or its record is untouched,
or it died since and is revived. -/
theorem cut_cases (hW : Within L t m) (hL : Later L t m m') (id : Id) :
    (m id = none ∧ cut L revive t m' id = none) ∨
      (∃ r, m id = some r ∧ m' id = some r ∧ cut L revive t m' id = some r) ∨
      ∃ r r', m id = some r ∧ m' id = some r' ∧ DiedAfter L t r r' ∧
        cut L revive t m' id = some (revive r') := by
  cases hm : m id with
  | none =>
    refine .inl ⟨rfl, ?_⟩
    unfold cut
    split
    · rfl
    · next r' hr' => rw [if_pos (hL.born hm hr')]
  | some r =>
    obtain ⟨r', hr', rfl | hd⟩ := hL.kept hm
    · refine .inr (.inl ⟨r', rfl, hr', ?_⟩)
      have hb := not_lt.2 (hW.birth_le hm)
      simp only [cut, hr', if_neg hb]
      split
      · rfl
      · next d hdeath => rw [if_neg (not_lt.2 (hW.death_le hm hdeath))]
    · refine .inr (.inr ⟨r, r', rfl, hr', hd, ?_⟩)
      have hb := not_lt.2 (hd.birth_eq ▸ hW.birth_le hm : L.birth r' ≤ t)
      obtain ⟨_, _, d, hdeath, hlt⟩ := hd
      simp only [cut, hr', if_neg hb, hdeath, if_pos hlt]

/-- **Two cuts are one**: to the earlier time, where each record is revived by the first cut that
its death is later than. -/
theorem cut_cut {revive' : R → R} {t' : T} (ht : t' ≤ t)
    (hbirth : ∀ r, L.birth (revive r) = L.birth r) (hdeath : ∀ r, L.death (revive r) = none)
    (id : Id) : cut L revive' t' (cut L revive t m) id =
      cut L (fun r => if ∃ d, L.death r = some d ∧ t < d then revive r else revive' r) t' m id := by
  cases hm : m id with
  | none => simp [cut, hm]
  | some r =>
    by_cases hb : t < L.birth r
    · simp [cut, hm, hb, ht.trans_lt hb]
    cases hd : L.death r with
    | none => simp [cut, hm, hb, hd]
    | some d =>
      by_cases hlt : t < d
      · simp [cut, hm, hb, hd, hlt, ht.trans_lt hlt, hbirth, hdeath]
      · simp [cut, hm, hb, hd, hlt]

/-- **When two ways of reviving give one cut**: when they agree on what is revived. -/
theorem cut_eq_iff {revive' : R → R} : cut L revive t m = cut L revive' t m ↔
    ∀ id r, m id = some r → L.birth r ≤ t → (∃ d, L.death r = some d ∧ t < d) →
      revive r = revive' r := by
  constructor
  · rintro heq id r hm hb ⟨d, hd, hlt⟩
    have hid := congrFun heq id
    simpa only [cut, hm, if_neg (not_lt.2 hb), hd, if_pos hlt, Option.some.injEq] using hid
  · intro hrevive
    funext id
    cases hm : m id with
    | none => simp [cut, hm]
    | some r =>
      by_cases hb : t < L.birth r
      · simp [cut, hm, hb]
      cases hd : L.death r with
      | none => simp [cut, hm, hb, hd]
      | some d =>
        by_cases hlt : t < d
        · simp [cut, hm, hb, hd, hlt, hrevive id r hm (not_lt.1 hb) ⟨d, hd, hlt⟩]
        · simp [cut, hm, hb, hd, hlt]

/-- What every way of reviving leaves alone is the same after each cut. -/
theorem map_cut {α : Type*} {revive' : R → R} (f : R → α) (hf : ∀ r, f (revive r) = f (revive' r))
    (id : Id) : (cut L revive t m id).map f = (cut L revive' t m id).map f := by
  cases hm : m id with
  | none => simp [cut, hm]
  | some r =>
    by_cases hb : t < L.birth r
    · simp [cut, hm, hb]
    cases hd : L.death r with
    | none => simp [cut, hm, hb, hd]
    | some d => by_cases hlt : t < d <;> simp [cut, hm, hb, hd, hlt, hf]

/-- **Later events are cut away**: a cut to an earlier time gives the same records, up to what
reviving does to the look of a record. -/
theorem Later.map_cut {α : Type*} {revive' : R → R} {t' : T} (h : Later L t m m') (ht : t' ≤ t)
    (f : R → α) (halive : ∀ r, f (revive r) = f (L.alive r))
    (hrevive : ∀ r, f (revive r) = f (revive' r)) (id : Id) :
    (cut L revive t' m' id).map f = (cut L revive' t' m id).map f := by
  cases hm : m id with
  | none =>
    cases hm' : m' id with
    | none => simp [cut, hm, hm']
    | some r' => simp [cut, hm, hm', lt_of_le_of_lt ht (h.born hm hm')]
  | some r =>
    obtain ⟨r', hm', rfl | hdied⟩ := h.kept hm
    · by_cases hb : t' < L.birth r'
      · simp [cut, hm, hm', hb]
      cases hd : L.death r' with
      | none => simp [cut, hm, hm', hb, hd]
      | some d => by_cases hlt : t' < d <;> simp [cut, hm, hm', hb, hd, hlt, hrevive]
    · have hbirth := hdied.birth_eq
      obtain ⟨hdeath, rfl, d, hd, hlt⟩ := hdied
      by_cases hb : t' < L.birth r'
      · simp [cut, hm, hm', hbirth ▸ hb, hb]
      · simp [cut, hm, hm', hbirth ▸ hb, hb, hdeath, hd, lt_of_le_of_lt ht hlt, halive]

end Lifecycle
