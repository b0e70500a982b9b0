import AccessTree.Proofs.Branches

/-!
Going down along last children. A step back leads to the parent of a first child, and otherwise
down from the elder sibling along last children. With a greatest number of levels the way down may
be given up above its end. Then the objects below the place where it is given up are passed over,
and no other objects are.
-/

namespace AccessTree.Tree

variable {ν : Type}

/-- The object so many levels down along last children. -/
def lastDown (t : Tree ν) : Nat → ν → Option ν
  | 0, n => some n
  | k + 1, n => (t.childAt n (t.childCount n - 1)).bind (lastDown t k)

/-- One object is where a step back from another one leads to. -/
inductive Back (t : Tree ν) (levels : Nat) (z x : ν) : Prop
  | parent (h : t.childAt z 0 = some x)
  | sibling {p s : ν} {i j : Nat} (hs : t.childAt p i = some s)
      (hx : t.childAt p (i + 1) = some x) (hz : t.lastDown j s = some z) (hj : j ≤ levels)
      (hend : t.childCount z = 0 ∨ j = levels)

/-- An object as many levels down from an elder sibling as a step back goes at most. -/
def GivesUpAt (t : Tree ν) (levels : Nat) (b z : ν) : Prop :=
  ∃ p i s, t.Reaches b p ∧ t.childAt p i = some s ∧ i + 1 < t.childCount p ∧
    t.lastDown levels s = some z

/-- Steps back from an object pass over another one: it lies below an object where the way down is
given up, and the first one does not. -/
def PassedOver (t : Tree ν) (levels : Nat) (b x y : ν) : Prop :=
  ∃ z, t.GivesUpAt levels b z ∧ t.Below z y ∧ ¬ t.Below z x

variable {t : Tree ν} {b n p s u x y z : ν} {i j k levels : Nat} {opens : ν → Bool}

lemma lastDown_add : t.lastDown (j + k) n = (t.lastDown j n).bind (t.lastDown k) := by
  induction j generalizing n with
  | zero => rw [Nat.zero_add]; rfl
  | succ j ih =>
    rw [Nat.add_right_comm, lastDown, lastDown, Option.bind_assoc]
    exact congrArg _ (funext fun c => ih)

lemma exists_follow_of_lastDown (h : t.lastDown k n = some z) :
    ∃ ps, ps.length = k ∧ t.follow n ps = some z := by
  induction k generalizing n with
  | zero => exact ⟨[], rfl, h⟩
  | succ k ih =>
    obtain ⟨c, hc, h⟩ := Option.bind_eq_some_iff.1 h
    obtain ⟨ps, rfl, hps⟩ := ih h
    exact ⟨_ :: ps, rfl, follow_cons.2 ⟨c, hc, hps⟩⟩

lemma reaches_of_lastDown (h : t.lastDown k n = some z) : t.Reaches n z := by
  obtain ⟨ps, -, h⟩ := exists_follow_of_lastDown h
  exact ⟨ps, h⟩

lemma Back.precedes (h : t.Back levels z x) : t.Precedes z x := by
  cases h with
  | parent h => exact (below_of_childAt h).precedes
  | sibling hs hx hz hj hend =>
    obtain ⟨ps, hps⟩ := reaches_of_lastDown hz
    exact precedes_of_siblings hs hx (Nat.lt_succ_self _) hps follow_nil

/-- What is passed over lies deeper than a walk forward goes. -/
lemma PassedOver.exists_follow (h : t.PassedOver levels b x y) :
    ∃ ps, t.follow b ps = some y ∧ levels + 1 < ps.length := by
  obtain ⟨z, ⟨p, i, s, ⟨ps, hp⟩, hs, -, hz⟩, ⟨j, us, hy⟩, -⟩ := h
  obtain ⟨qs, hq, hqs⟩ := exists_follow_of_lastDown hz
  refine ⟨ps ++ i :: (qs ++ j :: us), follow_trans hp (follow_cons.2 ⟨s, hs,
    follow_trans hqs hy⟩), ?_⟩
  simp only [List.length_append, List.length_cons]
  omega

namespace IsForest

variable (ht : t.IsForest)
include ht

/-- A branch ends as many levels down as it has, or where there is nothing below. -/
lemma exists_lastDown_of_branch (ho : ∀ a, opens a = true) (levels : Nat) (n : ν) :
    ∃ z j, (branch (t.kids opens) levels n).getLast? = some z ∧ t.lastDown j n = some z ∧
      j ≤ levels ∧ (t.childCount z = 0 ∨ j = levels) := by
  induction levels generalizing n with
  | zero => exact ⟨n, 0, rfl, rfl, Nat.le_refl 0, Or.inr rfl⟩
  | succ levels ih =>
    rcases hi : t.childCount n with _ | i
    · refine ⟨n, 0, ?_, rfl, Nat.zero_le _, Or.inl hi⟩
      rw [branch, kids, if_pos (ho n), childrenFrom_of_le (Nat.le_of_eq hi)]
      rfl
    · obtain ⟨c, hc, -⟩ := ht.child n i (by omega)
      obtain ⟨z, j, hlast, hz, hj, hend⟩ := ih c
      refine ⟨z, j + 1, ht.getLast?_branch (ho n) hi hc hlast, ?_, by omega, by omega⟩
      rw [lastDown, hi, Nat.add_sub_cancel, hc]
      exact hz

/-- From the way down only what is below its end is still to come. -/
lemma below_of_lastDown (h : t.lastDown k n = some z) (hy : t.Reaches n y)
    (hzy : t.Precedes z y) : t.Below z y := by
  induction k generalizing n with
  | zero =>
    cases h
    exact hy.eq_or_below.resolve_left fun he => ht.precedes_irrefl (he ▸ hzy)
  | succ k ih =>
    obtain ⟨c, hc, h⟩ := Option.bind_eq_some_iff.1 h
    obtain ⟨qs, hqs⟩ := reaches_of_lastDown h
    obtain ⟨_ | ⟨i, ps⟩, hy⟩ := hy
    · cases hy
      exact absurd hzy (ht.not_precedes_of_below ((below_of_childAt hc).trans_reaches ⟨qs, hqs⟩))
    · obtain ⟨d, hd, hy⟩ := follow_cons.1 hy
      have hlt := ht.lt_of_childAt hd
      rcases Nat.lt_or_eq_of_le (Nat.le_sub_one_of_lt hlt) with hi | rfl
      · exact absurd hzy (ht.precedes_asymm (precedes_of_siblings hd hc hi hy hqs))
      · rw [hc] at hd
        cases hd
        exact ih h ⟨ps, hy⟩

/-- What the way down comes through lies on it. -/
lemma exists_lastDown_between (h : t.lastDown j s = some z) (hu : t.Reaches s u)
    (huz : t.Below u z) : ∃ k < j, t.lastDown k s = some u := by
  obtain ⟨us, hus⟩ := hu
  obtain ⟨i, vs, hvs⟩ := huz
  obtain ⟨ps, rfl, hps⟩ := exists_follow_of_lastDown h
  obtain rfl := ht.follow_inj hps (follow_trans hus hvs)
  rw [List.length_append, lastDown_add] at h
  obtain ⟨v, hv, hvz⟩ := Option.bind_eq_some_iff.1 h
  obtain ⟨ws, hw, hws⟩ := exists_follow_of_lastDown hvz
  obtain rfl := ht.eq_of_follow hws hvs hw
  exact ⟨us.length, by simp, hv⟩

/-- Of two ways down to one object the longer one comes through where the shorter one begins, which
is a last child. -/
lemma last_of_lastDown (h : t.lastDown k s = some u) (h' : t.lastDown j n = some u) (hk : k < j)
    (hs : t.childAt p i = some s) : i + 1 = t.childCount p := by
  obtain ⟨d, rfl⟩ := Nat.exists_eq_add_of_lt hk
  rw [show k + d + 1 = d + 1 + k by omega, lastDown_add] at h'
  obtain ⟨v, hv, hvu⟩ := Option.bind_eq_some_iff.1 h'
  -- The longer way has come to `s` after the steps that it has more, and the last of those led to a
  -- last child.
  obtain ⟨ps, rfl, hps⟩ := exists_follow_of_lastDown h
  obtain ⟨qs, hq, hqs⟩ := exists_follow_of_lastDown hvu
  obtain rfl := ht.eq_of_follow hqs hps hq
  rw [lastDown_add] at hv
  obtain ⟨q, -, hq⟩ := Option.bind_eq_some_iff.1 hv
  obtain ⟨c, hc, he⟩ := Option.bind_eq_some_iff.1 hq
  cases he
  obtain ⟨-, hp, hi⟩ := ht.of_childAt hs
  obtain ⟨-, hp', hi'⟩ := ht.of_childAt hc
  rw [hp] at hp'
  cases hp'
  rw [hi] at hi'
  have := ht.lt_of_childAt hs
  have := Option.some.inj hi'
  omega

/-! ### Steps back -/

/-- Where a step back comes to below a place where the way down is given up, it begins there. -/
lemma below_of_back (h : t.Back levels z x) (hu : t.GivesUpAt levels b u) (huz : t.Below u z) :
    t.Below u x := by
  cases h with
  | parent h => exact huz.trans_reaches (below_of_childAt h).reaches
  | @sibling p s i j hs hx hz hj hend =>
    by_cases hsu : t.Reaches s u
    · obtain ⟨k, hk, hku⟩ := ht.exists_lastDown_between hz hsu huz
      obtain ⟨q, m, r, -, -, -, hru⟩ := hu
      have hlast := ht.last_of_lastDown hku hru (hk.trans_le hj) hs
      exact absurd (ht.lt_of_childAt hx) (Nat.not_lt.2 hlast.ge)
    · have hus := (ht.reaches_meet (reaches_of_lastDown hz) huz.reaches).resolve_left hsu
      have hup := (ht.below_childAt_iff hs).1 (hus.eq_or_below.resolve_left fun he =>
        hsu (he ▸ Reaches.refl))
      exact hup.trans_below (below_of_childAt hx)

lemma not_passedOver_of_back (h : t.Back levels z x) : ¬ t.PassedOver levels b x z :=
  fun ⟨_, hu, huz, hux⟩ => hux (ht.below_of_back h hu huz)

/-- What a step back leaves out is passed over. -/
lemma passedOver_of_between (h : t.Back levels z x) (hb : t.Below b x) (hzy : t.Precedes z y)
    (hyx : t.Precedes y x) : t.PassedOver levels b x y := by
  cases h with
  | parent h =>
    rcases (ht.precedes_childAt_iff h).1 hyx with hyz | rfl | ⟨j, hj, -⟩
    · exact absurd hzy (ht.precedes_asymm hyz)
    · exact absurd hzy ht.precedes_irrefl
    · exact absurd hj (Nat.not_lt_zero j)
  | @sibling p s i j hs hx hz hj hend =>
    have hsz := reaches_of_lastDown hz
    have hpz : t.Below p z := (below_of_childAt hs).trans_reaches hsz
    -- Between the end of the way down and the next child is only what the elder sibling reaches.
    have hsy : t.Reaches s y := by
      rcases (ht.precedes_childAt_iff hx).1 hyx with hyp | rfl | ⟨k, hk, c, qs, hc, hy⟩
      · exact absurd hzy (ht.precedes_asymm (ht.precedes_trans hyp hpz.precedes))
      · exact absurd hzy (ht.not_precedes_of_below hpz)
      · rcases Nat.lt_or_eq_of_le (Nat.le_of_lt_succ hk) with hki | rfl
        · obtain ⟨ps, hps⟩ := hsz
          exact absurd hzy (ht.precedes_asymm (precedes_of_siblings hc hs hki hy hps))
        · rw [hs] at hc
          cases hc
          exact ⟨qs, hy⟩
    have hbelow := ht.below_of_lastDown hz hsy hzy
    -- The way down ended with something still below it, so it was given up.
    obtain rfl : j = levels := hend.resolve_left fun hleaf => by
      obtain ⟨m, us, hm⟩ := hbelow
      obtain ⟨c, hc, -⟩ := follow_cons.1 hm
      have := ht.lt_of_childAt hc
      omega
    refine ⟨z, ⟨p, i, s, (ht.below_childAt_iff hx).1 hb, hs, ht.lt_of_childAt hx, hz⟩, hbelow,
      fun hzx => ?_⟩
    have := ht.index_eq hs hx (hsz.trans hzx.reaches) Reaches.refl
    omega

/-- Steps back from two objects, one step apart, pass over the same objects before both. -/
lemma passedOver_iff_of_back (h : t.Back levels z x) (hyz : t.Precedes y z) :
    t.PassedOver levels b x y ↔ t.PassedOver levels b z y := by
  refine exists_congr fun u => and_congr_right fun hu => and_congr_right fun huy =>
    not_congr ⟨fun hux => ?_, ht.below_of_back h hu⟩
  exact ht.below_of_precedes huy hux.reaches hyz h.precedes

end IsForest

end AccessTree.Tree
