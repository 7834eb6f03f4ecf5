import Biobjective.Proofs.Deadline
import Biobjective.Proofs.QueueOrder
import Mathlib.Data.Int.Interval
import Mathlib.Logic.Relation

/-!
# The loop over a gap

`Splitting.drain` works off the boxes of a gap, one in each round. `Splitting.Head` is
the state at the head of a round, together with the boxes asked about so far, and
`Head.round` is one round of the loop. The oracle is only asked to find whole points
within the ranges in force; what it finds may be bad, and may depend on all that was
said before.

The boxes that wait, the boxes without a point and the points found make up a layout
in which each lies to the lower right of another or to its upper left. A round
replaces a box of the layout by boxes within it, so the layout stays one, and what is
lost of the box compares with the point found. `Splitting.drain_invariant` states
this for every head, with the number of rounds and of points.
-/

namespace Biobjective

namespace Region

/-- One of the boxes lies to the lower right of the other. -/
def Apart (r r' : Region ℚ) : Prop :=
  (r.hi1 < r'.lo1 ∧ r'.hi2 < r.lo2) ∨ (r'.hi1 < r.lo1 ∧ r.hi2 < r'.lo2)

/-- The box `r` is a part of `r'`. -/
structure Within (r r' : Region ℚ) : Prop where
  lo1 : r'.lo1 ≤ r.lo1
  hi1 : r.hi1 ≤ r'.hi1
  lo2 : r'.lo2 ≤ r.lo2
  hi2 : r.hi2 ≤ r'.hi2

/-- The box of one point. -/
def single (z : Point ℚ) : Region ℚ := ⟨z.z1, z.z1, z.z2, z.z2⟩

namespace Within

theorem refl (r : Region ℚ) : r.Within r := ⟨le_rfl, le_rfl, le_rfl, le_rfl⟩

theorem trans {r s t : Region ℚ} (hrs : r.Within s) (hst : s.Within t) : r.Within t :=
  ⟨hst.lo1.trans hrs.lo1, hrs.hi1.trans hst.hi1, hst.lo2.trans hrs.lo2, hrs.hi2.trans hst.hi2⟩

theorem holds {r s : Region ℚ} (h : r.Within s) {z : Point ℚ} (hz : r.Holds z) : s.Holds z :=
  ⟨h.lo1.trans hz.1, hz.2.1.trans h.hi1, h.lo2.trans hz.2.2.1, hz.2.2.2.trans h.hi2⟩

theorem single {r : Region ℚ} {z : Point ℚ} (hz : r.Holds z) : (Region.single z).Within r :=
  ⟨hz.1, hz.2.1, hz.2.2.1, hz.2.2.2⟩

theorem of_mem_split {r r' : Region ℚ} {z : Point ℚ} (hz : r.Holds z) (hr' : r' ∈ r.split z) :
    r'.Within r := by
  obtain ⟨hlo1, hhi1, hlo2, hhi2⟩ := hz
  rcases mem_split_iff.1 hr' with ⟨-, -, rfl⟩ | ⟨-, -, rfl⟩
  · exact ⟨le_rfl, (sub_one_lt _).le.trans hhi1, hlo2.trans (lt_add_one _).le, le_rfl⟩
  · exact ⟨hlo1.trans (lt_add_one _).le, le_rfl, le_rfl, (sub_one_lt _).le.trans hhi2⟩

end Within

namespace Apart

theorem symm {r r' : Region ℚ} (h : r.Apart r') : r'.Apart r := Or.symm h

theorem of_within {r r' s : Region ℚ} (h : r.Apart r') (hs : s.Within r) : s.Apart r' := by
  rcases h with ⟨h1, h2⟩ | ⟨h1, h2⟩
  · exact Or.inl ⟨hs.hi1.trans_lt h1, h2.trans_le hs.lo2⟩
  · exact Or.inr ⟨h1.trans_le hs.lo1, hs.hi2.trans_lt h2⟩

theorem disjoint {r r' : Region ℚ} (h : r.Apart r') (z : Point ℚ) :
    ¬(r.Holds z ∧ r'.Holds z) := by
  rintro ⟨⟨h1, h2, -, -⟩, ⟨h1', h2', -, -⟩⟩
  rcases h with ⟨h, -⟩ | ⟨h, -⟩
  · linarith
  · linarith

theorem descends {y z : Point ℚ} (h : (single y).Apart (single z)) :
    Descends y z ∨ Descends z y := h

end Apart

/-- The parts of a box around a point lie apart from each other and from the point. -/
theorem pairwise_apart_split (r : Region ℚ) (z : Point ℚ) :
    (single z :: r.split z).Pairwise Apart := by
  refine List.pairwise_cons.2 ⟨fun r' hr' => ?_, ?_⟩
  · rcases mem_split_iff.1 hr' with ⟨-, -, rfl⟩ | ⟨-, -, rfl⟩
    · exact Or.inr ⟨sub_one_lt _, lt_add_one _⟩
    · exact Or.inl ⟨lt_add_one _, sub_one_lt _⟩
  · rw [split, upperLeft?, lowerRight?]
    split_ifs <;> simp
    exact Or.inl ⟨(sub_one_lt z.z1).trans (lt_add_one _), (sub_one_lt z.z2).trans (lt_add_one _)⟩

/-- A box of a layout gives way to boxes within it that lie apart from each other. -/
theorem pairwise_apart_replace {r : Region ℚ} {parts rest : List (Region ℚ)}
    (h : (r :: rest).Pairwise Apart) (hparts : parts.Pairwise Apart)
    (hwithin : ∀ s ∈ parts, s.Within r) : (parts ++ rest).Pairwise Apart := by
  obtain ⟨hr, hrest⟩ := List.pairwise_cons.1 h
  exact List.pairwise_append.2
    ⟨hparts, hrest, fun s hs r' hr' => (hr r' hr').of_within (hwithin s hs)⟩

/-- A whole point of a box is in one of the parts around a whole point, or it compares
with that point. -/
theorem holds_split_or {r : Region ℚ} {y z : Point ℚ} (hy : y.Whole) (hz : z.Whole)
    (h : r.Holds y) :
    (∃ r' ∈ r.split z, r'.Holds y) ∨ WeaklyDominates y z ∨ WeaklyDominates z y := by
  obtain ⟨hlo1, hhi1, hlo2, hhi2⟩ := h
  rcases lt_or_ge y.z1 z.z1 with h1 | h1
  · rcases lt_or_ge z.z2 y.z2 with h2 | h2
    · have hstep1 := hy.z1.add_one_le_of_lt hz.z1 h1
      have hstep2 := hz.z2.add_one_le_of_lt hy.z2 h2
      exact Or.inl ⟨_, mem_split_iff.2 (Or.inl ⟨by linarith, by linarith, rfl⟩),
        hlo1, by linarith, hstep2, hhi2⟩
    · exact Or.inr (Or.inl ⟨h1.le, h2⟩)
  · rcases lt_or_ge y.z2 z.z2 with h2 | h2
    · rcases eq_or_lt_of_le h1 with heq | hlt
      · exact Or.inr (Or.inl ⟨heq.ge, h2.le⟩)
      · have hstep1 := hz.z1.add_one_le_of_lt hy.z1 hlt
        have hstep2 := hy.z2.add_one_le_of_lt hz.z2 h2
        exact Or.inl ⟨_, mem_split_iff.2 (Or.inr ⟨by linarith, by linarith, rfl⟩),
          hstep1, hhi1, hlo2, by linarith⟩
    · exact Or.inr (Or.inr ⟨h1, h2⟩)

end Region

/-- Different whole values between two bounds are not more than the bounds leave room
for. -/
theorem length_le_of_whole {α : Type} {f : α → ℚ} {l : List α} {lo hi : ℚ}
    (hne : l.Pairwise fun a b => f a ≠ f b) (hwhole : ∀ a ∈ l, IsWhole (f a))
    (hlo : ∀ a ∈ l, lo ≤ f a) (hhi : ∀ a ∈ l, f a ≤ hi) (hlohi : lo ≤ hi)
    (hlow : IsWhole lo) (hhiw : IsWhole hi) : (l.length : ℚ) ≤ hi - lo + 1 := by
  obtain ⟨i, rfl⟩ := hlow
  obtain ⟨j, rfl⟩ := hhiw
  have hfloor : ∀ a ∈ l, ((⌊f a⌋ : ℤ) : ℚ) = f a := by
    intro a ha
    obtain ⟨k, hk⟩ := hwhole a ha
    rw [← hk, Int.floor_intCast]
  have hnodup : (l.map fun a => ⌊f a⌋).Nodup := by
    refine List.pairwise_map.2 (hne.imp_of_mem fun {a b} ha hb hab heq => hab ?_)
    rw [← hfloor a ha, ← hfloor b hb, heq]
  have hsub : (l.map fun a => ⌊f a⌋).toFinset ⊆ Finset.Icc i j := by
    intro k hk
    obtain ⟨a, ha, rfl⟩ := List.mem_map.1 (List.mem_toFinset.1 hk)
    have h1 := hlo a ha
    have h2 := hhi a ha
    rw [← hfloor a ha, Int.cast_le] at h1 h2
    exact Finset.mem_Icc.2 ⟨h1, h2⟩
  have hcard := Finset.card_le_card hsub
  rw [List.toFinset_card_of_nodup hnodup, List.length_map, Int.card_Icc] at hcard
  have hij : i ≤ j := Int.cast_le.1 hlohi
  have hint : (l.length : ℤ) ≤ j - i + 1 := by omega
  exact_mod_cast hint

/-- From the state `s` on, under the terms `t`, the points found are whole and in the
ranges in force. -/
structure Oracle.Confined {σ : Type} (o : Oracle ℚ σ) (s : σ) (t : Terms ℚ) : Prop where
  whole : ∀ calls best, (o.solve (o.after s calls)).1 = .optimal best → best.toPoint.Whole
  first : ∀ calls best, (o.solve (o.after s calls)).1 = .optimal best →
    (t.after calls).first.allows best.z1 = true
  second : ∀ calls best, (o.solve (o.after s calls)).1 = .optimal best →
    (t.after calls).second.allows best.z2 = true

namespace Splitting

/-- The boxes that wait, the boxes without a point and the points found lie apart in
a box, and each whole point of the box is in one of the boxes or compares with a point
found. -/
structure Layout (box : Region ℚ) (queue barren : List (Region ℚ)) (found : List (Point ℚ)) :
    Prop where
  whole : ∀ r ∈ queue, r.Whole
  proper : ∀ r ∈ queue, r.lo1 ≤ r.hi1 ∧ r.lo2 ≤ r.hi2
  found_whole : ∀ z ∈ found, z.Whole
  apart : (queue ++ barren ++ found.map Region.single).Pairwise Region.Apart
  within : ∀ r ∈ queue ++ barren ++ found.map Region.single, r.Within box
  covered : ∀ z : Point ℚ, z.Whole → box.Holds z →
    (∃ r ∈ queue, r.Holds z) ∨ (∃ r ∈ barren, r.Holds z) ∨
      ∃ y ∈ found, WeaklyDominates y z ∨ WeaklyDominates z y
  budget : queue.length + barren.length ≤ found.length + 1

namespace Layout

variable {box r : Region ℚ} {queue rest barren : List (Region ℚ)} {found : List (Point ℚ)}

theorem singleton (hwhole : box.Whole) (h1 : box.lo1 ≤ box.hi1) (h2 : box.lo2 ≤ box.hi2) :
    Layout box [box] [] [] := by
  refine ⟨?_, ?_, by simp, by simp, ?_, ?_, by simp⟩
  · simpa using hwhole
  · simpa using ⟨h1, h2⟩
  · simpa using Region.Within.refl box
  · intro z _ hz
    exact Or.inl ⟨box, List.mem_singleton_self box, hz⟩

theorem of_perm (h : Layout box queue barren found) (hperm : (r :: rest).Perm queue) :
    Layout box (r :: rest) barren found := by
  have hall : (r :: rest ++ barren ++ found.map Region.single).Perm
      (queue ++ barren ++ found.map Region.single) := (hperm.append_right _).append_right _
  refine ⟨fun r' hr' => h.whole r' (hperm.mem_iff.1 hr'),
    fun r' hr' => h.proper r' (hperm.mem_iff.1 hr'), h.found_whole,
    h.apart.perm hall.symm Region.Apart.symm, fun r' hr' => h.within r' (hall.mem_iff.1 hr'),
    fun z hz hbox => ?_, ?_⟩
  · simpa only [hperm.mem_iff] using h.covered z hz hbox
  · rw [hperm.length_eq]
    exact h.budget

/-- A box turns out to have no point. -/
theorem close (h : Layout box (r :: rest) barren found) : Layout box rest (barren ++ [r]) found := by
  have hall : (rest ++ (barren ++ [r]) ++ found.map Region.single).Perm
      (r :: rest ++ barren ++ found.map Region.single) := by
    refine List.Perm.append_right _ ?_
    rw [← List.append_assoc]
    exact List.perm_append_singleton r (rest ++ barren)
  refine ⟨fun r' hr' => h.whole r' (List.mem_cons_of_mem _ hr'),
    fun r' hr' => h.proper r' (List.mem_cons_of_mem _ hr'), h.found_whole,
    h.apart.perm hall.symm Region.Apart.symm, fun r' hr' => h.within r' (hall.mem_iff.1 hr'),
    fun z hz hbox => ?_, ?_⟩
  · rcases h.covered z hz hbox with ⟨r', hr', hz'⟩ | ⟨r', hr', hz'⟩ | hfound
    · rcases List.mem_cons.1 hr' with rfl | hr'
      · exact Or.inr (Or.inl ⟨r', by simp, hz'⟩)
      · exact Or.inl ⟨r', hr', hz'⟩
    · exact Or.inr (Or.inl ⟨r', List.mem_append_left _ hr', hz'⟩)
    · exact Or.inr (Or.inr hfound)
  · have hbudget := h.budget
    simp only [List.length_cons, List.length_append, List.length_nil] at hbudget ⊢
    omega

/-- A point is found in a box, and the parts around it are left of the box. -/
theorem excise (h : Layout box (r :: rest) barren found) {z : Point ℚ} (hz : z.Whole)
    (hholds : r.Holds z) : Layout box (rest ++ r.split z) barren (found ++ [z]) := by
  have hwithin : ∀ r' ∈ Region.single z :: r.split z, r'.Within r := by
    intro r' hr'
    rcases List.mem_cons.1 hr' with rfl | hr'
    · exact .single hholds
    · exact .of_mem_split hholds hr'
  have hall : (rest ++ r.split z ++ barren ++ (found ++ [z]).map Region.single).Perm
      (Region.single z :: r.split z ++ (rest ++ barren ++ found.map Region.single)) := by
    refine List.perm_iff_count.2 fun a => ?_
    simp only [List.count_append, List.count_cons, List.map_append, List.map_cons, List.map_nil,
      List.cons_append, List.count_nil]
    omega
  refine ⟨fun r' hr' => ?_, fun r' hr' => ?_, ?_, ?_, fun r' hr' => ?_, fun y hy hbox => ?_, ?_⟩
  · rcases List.mem_append.1 hr' with hr' | hr'
    · exact h.whole r' (List.mem_cons_of_mem _ hr')
    · exact (h.whole r List.mem_cons_self).split hz hr'
  · rcases List.mem_append.1 hr' with hr' | hr'
    · exact h.proper r' (List.mem_cons_of_mem _ hr')
    · rcases Region.mem_split_iff.1 hr' with ⟨h1, h2, rfl⟩ | ⟨h1, h2, rfl⟩
      · exact ⟨h1, h2⟩
      · exact ⟨h1, h2⟩
  · simpa [or_imp, forall_and] using ⟨h.found_whole, hz⟩
  · refine List.Pairwise.perm ?_ hall.symm Region.Apart.symm
    refine Region.pairwise_apart_replace ?_ (Region.pairwise_apart_split r z) hwithin
    simpa only [List.cons_append] using h.apart
  · rcases List.mem_append.1 (hall.mem_iff.1 hr') with hr' | hr'
    · exact (hwithin r' hr').trans (h.within r (by simp))
    · exact h.within r' (by simpa using Or.inr (by simpa using hr'))
  · rcases h.covered y hy hbox with ⟨r', hr', hy'⟩ | hbarren | ⟨x, hx, hxy⟩
    · rcases List.mem_cons.1 hr' with rfl | hr'
      · rcases Region.holds_split_or hy hz hy' with ⟨part, hpart, hy'⟩ | hcompare
        · exact Or.inl ⟨part, List.mem_append_right _ hpart, hy'⟩
        · exact Or.inr (Or.inr ⟨z, by simp, hcompare.symm⟩)
      · exact Or.inl ⟨r', List.mem_append_left _ hr', hy'⟩
    · exact Or.inr (Or.inl hbarren)
    · exact Or.inr (Or.inr ⟨x, List.mem_append_left _ hx, hxy⟩)
  · have hbudget := h.budget
    have hsplit : (r.split z).length ≤ 2 := by
      rw [Region.split, List.length_append]
      exact Nat.add_le_add (Option.length_toList_le) (Option.length_toList_le)
    simp only [List.length_cons, List.length_append, List.length_nil] at hbudget ⊢
    omega

end Layout

section Loop

variable {σ : Type}

/-- The state at the head of a round, with the boxes asked about so far and the
answers. -/
structure Head (σ : Type) where
  queue : List (Region ℚ)
  asked : List (Region ℚ × Answer ℚ)
  progress : Progress ℚ
  world : World ℚ σ

/-- What a round leads to. -/
inductive Round (σ : Type) where
  | again (h : Head σ)
  | ended (e : Phase.Ending ℚ σ Unit)

/-- The world after the ranges of a box were told. -/
def bounded (o : Oracle ℚ σ) (c : Clock) (r : Region ℚ) (w : World ℚ σ) : World ℚ σ :=
  ((w.time c).2.tell o (.bound .first (r.range .first))).tell o (.bound .second (r.range .second))

theorem terms_bounded (t : Terms ℚ) (o : Oracle ℚ σ) (c : Clock) (r : Region ℚ) (w : World ℚ σ) :
    (bounded o c r w).terms t = .boxed (w.terms t).weights (w.terms t).exclusions r := by
  rw [bounded, World.terms_tell, World.terms_tell, World.terms_time]
  rfl

theorem questions_bounded (t : Terms ℚ) (o : Oracle ℚ σ) (c : Clock) (r : Region ℚ)
    (w : World ℚ σ) : (bounded o c r w).questions t = w.questions t := by
  rw [bounded, World.questions_tell, World.questions_tell, World.questions_time]

theorem tracks_bounded {o : Oracle ℚ σ} {s : σ} {w : World ℚ σ} (h : w.Tracks o s) (c : Clock)
    (r : Region ℚ) : (bounded o c r w).Tracks o s :=
  ((h.time c).tell _).tell _

namespace Head

/-- The head of the first round for a box. -/
def start (box : Region ℚ) (p : Progress ℚ) (w : World ℚ σ) : Head σ := ⟨[box], [], p, w⟩

/-- The points found so far. -/
def found (h : Head σ) : List (Point ℚ) :=
  h.asked.filterMap fun x =>
    match x.2 with
    | .optimal best => some best.toPoint
    | _ => none

/-- The boxes that were reported infeasible. -/
def barren (h : Head σ) : List (Region ℚ) :=
  h.asked.filterMap fun x =>
    match x.2 with
    | .infeasible => some x.1
    | _ => none

/-- One round of the loop. -/
def round (cfg : Config ℚ) (o : Oracle ℚ σ) (c : Clock) (h : Head σ) : Round σ :=
  match cfg.queueOrder.pop? h.queue with
  | none => .ended ((.ok (), h.progress), h.world)
  | some (r, rest) =>
    if cfg.timeLimit ≤ c h.world.moment then
      .ended ((.error .timeout, h.progress), (h.world.time c).2)
    else
      let (answer, world) := (bounded o c r h.world).solve o
      match h.progress.work.record? answer.nodes with
      | none => .ended ((.error .overflow, h.progress), world)
      | some work =>
        let asked := h.asked ++ [(r, answer)]
        match answer with
        | .optimal best =>
          let frontier :=
            (h.progress.frontier.update (best.toSolution false cfg.keepDecisions)).2
          .again ⟨rest ++ r.split best.toPoint, asked, { frontier, work }, world⟩
        | .infeasible => .again ⟨rest, asked, { h.progress with work }, world⟩
        | .timedOut _ => .ended ((.error .timeout, { h.progress with work }), world)

/-- The loop gets from one head to the next. -/
def Next (cfg : Config ℚ) (o : Oracle ℚ σ) (c : Clock) (h h' : Head σ) : Prop :=
  h.round cfg o c = .again h'

/-- The loop gets from one head to another, in any number of rounds. -/
abbrev Reaches (cfg : Config ℚ) (o : Oracle ℚ σ) (c : Clock) : Head σ → Head σ → Prop :=
  Relation.ReflTransGen (Next cfg o c)

end Head

open Phase in
/-- The loop is made of rounds. -/
theorem hold_drain_succ (cfg : Config ℚ) (o : Oracle ℚ σ) (c : Clock) (fuel : ℕ) (h : Head σ) :
    hold o c (drain cfg (fuel + 1) h.queue) h.progress h.world =
      match h.round cfg o c with
      | .again h' => hold o c (drain cfg fuel h'.queue) h'.progress h'.world
      | .ended e => e := by
  rw [drain, Head.round]
  cases cfg.queueOrder.pop? h.queue with
  | none => rfl
  | some popped =>
      obtain ⟨r, rest⟩ := popped
      simp only [hold_checkTime_bind]
      by_cases hlate : cfg.timeLimit ≤ c h.world.moment
      · rw [if_pos hlate, if_pos hlate]
      · rw [if_neg hlate, if_neg hlate]
        simp only [hold_tell_bind, hold_solve_bind]
        have hbounded : ((h.world.time c).2.tell o (.bound .first (r.range .first))).tell o
            (.bound .second (r.range .second)) = bounded o c r h.world := rfl
        rw [hbounded]
        rcases (bounded o c r h.world).solve o with ⟨answer, world⟩
        cases h.progress.work.record? answer.nodes with
        | none => rfl
        | some work =>
            cases answer with
            | optimal best => rfl
            | infeasible => rfl
            | timedOut nodes => rfl

/-- What is found under the ranges of a box is a whole point of the box. -/
theorem holds_of_optimal {o : Oracle ℚ σ} {s : σ} {t : Terms ℚ} (ho : o.Confined s t)
    {c : Clock} {r : Region ℚ} (hr : r.Whole) {w : World ℚ σ} (hw : w.Tracks o s)
    {best : Optimum ℚ} (hbest : ((bounded o c r w).solve o).1 = .optimal best) :
    best.toPoint.Whole ∧ r.Holds best.toPoint := by
  have hterms := terms_bounded t o c r w
  change (o.solve (bounded o c r w).oracle).1 = .optimal best at hbest
  rw [tracks_bounded hw c r] at hbest
  have hwhole := ho.whole _ best hbest
  have hfirst := ho.first _ best hbest
  have hsecond := ho.second _ best hbest
  rw [World.terms] at hterms
  rw [hterms] at hfirst hsecond
  exact ⟨hwhole, (hr.allows_iff hwhole).1 ⟨hfirst, hsecond⟩⟩

namespace Head

variable {cfg : Config ℚ} {o : Oracle ℚ σ} {c : Clock} {s : σ} {t : Terms ℚ} {w : World ℚ σ}
variable {box : Region ℚ} {h h' : Head σ}

/-- A round that leads to another one asks about a box of the queue, and the parts of
the box around the point found join the queue. -/
theorem Next.inv (hnext : Next cfg o c h h') :
    ∃ r rest answer, (r :: rest).Perm h.queue ∧ ((bounded o c r h.world).solve o).1 = answer ∧
      h'.world = ((bounded o c r h.world).solve o).2 ∧ h'.asked = h.asked ++ [(r, answer)] ∧
      ((∃ best, answer = .optimal best ∧ h'.queue = rest ++ r.split best.toPoint) ∨
        (answer = .infeasible ∧ h'.queue = rest)) := by
  rw [Next, round] at hnext
  cases hpop : cfg.queueOrder.pop? h.queue with
  | none => simp [hpop] at hnext
  | some popped =>
      obtain ⟨r, rest⟩ := popped
      simp only [hpop] at hnext
      split_ifs at hnext
      refine ⟨r, rest, _, QueueOrder.perm_of_pop? hpop, rfl, ?_⟩
      rcases hsolve : (bounded o c r h.world).solve o with ⟨answer, world⟩
      simp only [hsolve] at hnext
      cases hrecord : h.progress.work.record? answer.nodes with
      | none => simp [hrecord] at hnext
      | some work =>
          simp only [hrecord] at hnext
          cases answer with
          | optimal best =>
              cases Round.again.inj hnext
              exact ⟨rfl, rfl, Or.inl ⟨best, rfl, rfl⟩⟩
          | infeasible =>
              cases Round.again.inj hnext
              exact ⟨rfl, rfl, Or.inr ⟨rfl, rfl⟩⟩
          | timedOut nodes => cases hnext

/-- The last round solves only if there is a box to ask about, and never for want of
fuel is it the last. -/
theorem ended_inv {e : Phase.Ending ℚ σ Unit} (hended : h.round cfg o c = .ended e) :
    e.1.1 ≠ .error .outOfFuel ∧
      e.2.moment.solves ≤ h.world.moment.solves + h.queue.length := by
  rw [round] at hended
  cases hpop : cfg.queueOrder.pop? h.queue with
  | none =>
      simp only [hpop] at hended
      cases Round.ended.inj hended
      exact ⟨nofun, Nat.le_add_right _ _⟩
  | some popped =>
      obtain ⟨r, rest⟩ := popped
      have hlength := (QueueOrder.perm_of_pop? hpop).length_eq
      rw [List.length_cons] at hlength
      have hsolves : ((bounded o c r h.world).solve o).2.moment.solves ≤
          h.world.moment.solves + h.queue.length := by
        change h.world.moment.solves + 1 ≤ _
        omega
      simp only [hpop] at hended
      split_ifs at hended
      · cases Round.ended.inj hended
        exact ⟨nofun, Nat.le_add_right _ _⟩
      · rcases hsolve : (bounded o c r h.world).solve o with ⟨answer, world⟩
        rw [hsolve] at hsolves
        simp only [hsolve] at hended
        cases hrecord : h.progress.work.record? answer.nodes with
        | none =>
            simp only [hrecord] at hended
            cases Round.ended.inj hended
            exact ⟨nofun, hsolves⟩
        | some work =>
            simp only [hrecord] at hended
            cases answer with
            | optimal best => cases hended
            | infeasible => cases hended
            | timedOut nodes =>
                cases Round.ended.inj hended
                exact ⟨nofun, hsolves⟩

/-- The loop has asked about its boxes since `w`, and has told nothing but ranges. -/
structure Recorded (o : Oracle ℚ σ) (s : σ) (t : Terms ℚ) (w : World ℚ σ) (h : Head σ) :
    Prop where
  tracks : h.world.Tracks o s
  weights_eq : (h.world.terms t).weights = (w.terms t).weights
  exclusions_eq : (h.world.terms t).exclusions = (w.terms t).exclusions
  questions_eq : h.world.questions t = w.questions t ++
    h.asked.map fun x => (.boxed (w.terms t).weights (w.terms t).exclusions x.1, x.2)
  solves_eq : h.world.moment.solves = w.moment.solves + h.asked.length

theorem recorded_start (hw : w.Tracks o s) (p : Progress ℚ) :
    (start box p w).Recorded o s t w :=
  ⟨hw, rfl, rfl, (List.append_nil _).symm, rfl⟩

theorem Recorded.next (hrec : h.Recorded o s t w) (hnext : Next cfg o c h h') :
    h'.Recorded o s t w := by
  obtain ⟨r, rest, answer, -, hanswer, hworld, hasked, -⟩ := hnext.inv
  have hterms : h'.world.terms t = .boxed (w.terms t).weights (w.terms t).exclusions r := by
    rw [hworld, World.terms_solve, terms_bounded, hrec.weights_eq, hrec.exclusions_eq]
  refine ⟨?_, by rw [hterms]; rfl, by rw [hterms]; rfl, ?_, ?_⟩
  · rw [hworld]
    exact (tracks_bounded hrec.tracks c r).solve
  · rw [hworld, World.questions_solve, questions_bounded, hanswer, terms_bounded,
      hrec.questions_eq, hrec.weights_eq, hrec.exclusions_eq, hasked, List.map_append,
      List.append_assoc]
    rfl
  · rw [hworld, hasked, List.length_append]
    change h.world.moment.solves + 1 = _
    rw [hrec.solves_eq]
    rfl

/-- The boxes and the points of a head make up a layout, and each answer so far brought
a point or showed a box to have none. -/
structure Laid (box : Region ℚ) (h : Head σ) : Prop where
  layout : Layout box h.queue h.barren h.found
  length_asked : h.asked.length = h.barren.length + h.found.length

theorem Laid.next (ho : o.Confined s t) (hrec : h.Recorded o s t w) (hlaid : h.Laid box)
    (hnext : Next cfg o c h h') : h'.Laid box := by
  obtain ⟨r, rest, answer, hperm, hanswer, -, hasked, hcases⟩ := hnext.inv
  have hlayout := hlaid.layout.of_perm hperm
  have hlength := hlaid.length_asked
  rcases hcases with ⟨best, rfl, hqueue⟩ | ⟨rfl, hqueue⟩
  · obtain ⟨hwhole, hholds⟩ :=
      holds_of_optimal ho (hlayout.whole r List.mem_cons_self) hrec.tracks hanswer
    have hfound : h'.found = h.found ++ [best.toPoint] := by
      rw [found, hasked, List.filterMap_append]
      rfl
    have hbarren : h'.barren = h.barren := by
      rw [barren, hasked, List.filterMap_append]
      exact List.append_nil _
    refine ⟨?_, ?_⟩
    · rw [hqueue, hfound, hbarren]
      exact hlayout.excise hwhole hholds
    · rw [hasked, hfound, hbarren, List.length_append, List.length_append, hlength]
      exact Nat.add_assoc _ _ _
  · have hfound : h'.found = h.found := by
      rw [found, hasked, List.filterMap_append]
      exact List.append_nil _
    have hbarren : h'.barren = h.barren ++ [r] := by
      rw [barren, hasked, List.filterMap_append]
      rfl
    refine ⟨?_, ?_⟩
    · rw [hqueue, hfound, hbarren]
      exact hlayout.close
    · rw [hasked, hfound, hbarren, List.length_append, List.length_append, hlength]
      exact Nat.add_right_comm _ _ _

theorem Reaches.laid (ho : o.Confined s t) (hreach : Reaches cfg o c h h')
    (hrec : h.Recorded o s t w) (hlaid : h.Laid box) :
    h'.Recorded o s t w ∧ h'.Laid box := by
  induction hreach with
  | refl => exact ⟨hrec, hlaid⟩
  | tail _ hnext ih => exact ⟨ih.1.next hnext, ih.2.next ho ih.1 hnext⟩

theorem Next.length_asked (hnext : Next cfg o c h h') :
    h'.asked.length = h.asked.length + 1 := by
  obtain ⟨r, rest, answer, -, -, -, hasked, -⟩ := hnext.inv
  rw [hasked, List.length_append]
  rfl

/-- Where the number of boxes asked about is bounded, there is a last round, and with
fuel for the rounds the loop ends as it does. -/
theorem exists_ended {n : ℕ} (hbound : ∀ h', Reaches cfg o c h h' → h'.asked.length ≤ n) :
    ∃ last e, Reaches cfg o c h last ∧ last.round cfg o c = .ended e ∧
      h.asked.length ≤ last.asked.length ∧
      ∀ fuel, last.asked.length < h.asked.length + fuel →
        Phase.hold o c (drain cfg fuel h.queue) h.progress h.world = e := by
  -- Each round adds a box to those asked about, so the room up to the bound shrinks.
  obtain ⟨room, hroom⟩ : ∃ room, n < h.asked.length + room := ⟨n + 1, by omega⟩
  induction room generalizing h with
  | zero =>
      have hle := hbound h .refl
      omega
  | succ room ih =>
      cases hround : h.round cfg o c with
      | ended e =>
          refine ⟨h, e, .refl, hround, le_rfl, fun fuel hfuel => ?_⟩
          obtain ⟨fuel, rfl⟩ := Nat.exists_eq_add_one.2 (Nat.lt_add_right_iff_pos.1 hfuel)
          rw [hold_drain_succ, hround]
      | again h1 =>
          have hnext : Next cfg o c h h1 := hround
          have hlength := hnext.length_asked
          obtain ⟨last, e, hreach, hlast, hle, hfuel⟩ :=
            ih (fun h' hh' => hbound h' (.head hnext hh')) (by omega)
          refine ⟨last, e, .head hnext hreach, hlast, by omega, fun fuel hlt => ?_⟩
          obtain ⟨fuel, rfl⟩ : ∃ k, fuel = k + 1 := ⟨fuel - 1, by omega⟩
          rw [hold_drain_succ, hround]
          exact hfuel fuel (by omega)

/-- The boxes that wait are disjoint parts of `box` with whole points, apart from the
boxes reported infeasible, the points found descend, and no other whole point of `box`
is lost than one that compares with a point found. -/
structure Sound (box : Region ℚ) (h : Head σ) : Prop where
  nonempty : ∀ r ∈ h.queue, ∃ z : Point ℚ, z.Whole ∧ r.Holds z
  disjoint : h.queue.Pairwise fun r r' => ∀ z, ¬(r.Holds z ∧ r'.Holds z)
  disjoint_barren : ∀ r ∈ h.queue, ∀ r' ∈ h.barren, ∀ z, ¬(r.Holds z ∧ r'.Holds z)
  within : ∀ r ∈ h.queue, ∀ z, r.Holds z → box.Holds z
  distinct : (h.found.map Point.z1).Nodup
  descending : Staircase (h.found.mergeSort fun y z => y.z1 ≤ z.z1)
  covered : ∀ z : Point ℚ, z.Whole → box.Holds z →
    (∃ r ∈ h.queue, r.Holds z) ∨ (∃ r ∈ h.barren, r.Holds z) ∨
      ∃ y ∈ h.found, WeaklyDominates y z ∨ WeaklyDominates z y

end Head

namespace Layout

variable {box : Region ℚ} {queue barren : List (Region ℚ)} {found : List (Point ℚ)}

theorem found_steps (h : Layout box queue barren found) :
    found.Pairwise fun y z => Descends y z ∨ Descends z y :=
  (List.pairwise_map.1 (List.pairwise_append.1 h.apart).2.1).imp Region.Apart.descends

theorem found_holds (h : Layout box queue barren found) {z : Point ℚ} (hz : z ∈ found) :
    box.Holds z := by
  have hwithin := h.within (Region.single z)
    (List.mem_append_right _ (List.mem_map_of_mem hz))
  exact hwithin.holds ⟨le_rfl, le_rfl, le_rfl, le_rfl⟩

/-- There are no more points than a side of the box has room for. -/
theorem length_found_le (h : Layout box queue barren found) (hbox : box.Whole)
    (h1 : box.lo1 ≤ box.hi1) (h2 : box.lo2 ≤ box.hi2) :
    (found.length : ℚ) ≤ min (box.hi1 - box.lo1) (box.hi2 - box.lo2) + 1 := by
  rw [← min_add_add_right]
  refine le_min ?_ ?_
  · refine length_le_of_whole (f := Point.z1) (h.found_steps.imp fun hstep heq => ?_)
      (fun z hz => (h.found_whole z hz).z1) (fun z hz => (h.found_holds hz).1)
      (fun z hz => (h.found_holds hz).2.1) h1 hbox.lo1 hbox.hi1
    rcases hstep with ⟨hlt, -⟩ | ⟨hlt, -⟩
    · exact hlt.ne heq
    · exact hlt.ne' heq
  · refine length_le_of_whole (f := Point.z2) (h.found_steps.imp fun hstep heq => ?_)
      (fun z hz => (h.found_whole z hz).z2) (fun z hz => (h.found_holds hz).2.2.1)
      (fun z hz => (h.found_holds hz).2.2.2) h2 hbox.lo2 hbox.hi2
    rcases hstep with ⟨-, hlt⟩ | ⟨-, hlt⟩
    · exact hlt.ne' heq
    · exact hlt.ne heq

end Layout

theorem Head.Laid.sound {box : Region ℚ} {h : Head σ} (hlaid : h.Laid box) : h.Sound box := by
  have hlayout := hlaid.layout
  have hapart := hlayout.apart
  rw [List.append_assoc] at hapart
  obtain ⟨hqueue, -, hbetween⟩ := List.pairwise_append.1 hapart
  refine ⟨fun r hr => ?_, hqueue.imp fun h => h.disjoint,
    fun r hr r' hr' => (hbetween r hr r' (List.mem_append_left _ hr')).disjoint,
    fun r hr z hz => (hlayout.within r (by simp [hr])).holds hz, ?_,
    .mergeSort hlayout.found_steps, hlayout.covered⟩
  · have hwhole := hlayout.whole r hr
    obtain ⟨h1, h2⟩ := hlayout.proper r hr
    exact ⟨⟨r.lo1, r.lo2⟩, ⟨hwhole.lo1, hwhole.lo2⟩, le_rfl, h1, le_rfl, h2⟩
  · refine List.pairwise_map.2 (hlayout.found_steps.imp fun hstep heq => ?_)
    rcases hstep with ⟨hlt, -⟩ | ⟨hlt, -⟩
    · exact hlt.ne heq
    · exact hlt.ne' heq

/-- Let the points that an oracle finds be whole and in the ranges in force, whatever
they are otherwise. Then the loop over the box between two whole corners keeps its
boxes and points `Sound` at the head of every round, in either order of the queue and
under any clock. It comes to an end of its own, with at most two solves for each point
found and one more, and it finds at most as many points as the shorter side of the box
has room for. -/
theorem drain_invariant {o : Oracle ℚ σ} {s : σ} {t : Terms ℚ} (ho : o.Confined s t)
    {left right : Solution ℚ} (hleft : left.toPoint.Whole) (hright : right.toPoint.Whole)
    (h1 : left.z1 < right.z1) (h2 : right.z2 < left.z2) (cfg : Config ℚ) (c : Clock)
    (p : Progress ℚ) {w : World ℚ σ} (hw : w.Tracks o s) :
    let box := Region.ofCorners left right
    (∀ h, Head.Reaches cfg o c (.start box p w) h → h.Sound box ∧ h.Recorded o s t w) ∧
      ∃ last e, Head.Reaches cfg o c (.start box p w) last ∧ last.round cfg o c = .ended e ∧
        (∀ fuel, 2 * last.found.length + 1 < fuel →
          Phase.hold o c (drain cfg fuel [box]) p w = e) ∧
        e.1.1 ≠ .error .outOfFuel ∧
        e.2.moment.solves ≤ w.moment.solves + (2 * last.found.length + 1) ∧
        (last.found.length : ℚ) ≤ min (right.z1 - left.z1) (left.z2 - right.z2) + 1 := by
  intro box
  have hbox : box.Whole := .ofCorners hleft hright
  have hstart : (Head.start box p w).Laid box := ⟨.singleton hbox h1.le h2.le, rfl⟩
  have hreach : ∀ h, Head.Reaches cfg o c (.start box p w) h →
      h.Recorded o s t w ∧ h.Laid box := fun h hh =>
    Head.Reaches.laid ho hh (Head.recorded_start hw p) hstart
  have hfound : ∀ h, Head.Reaches cfg o c (.start box p w) h →
      (h.found.length : ℚ) ≤ min (right.z1 - left.z1) (left.z2 - right.z2) + 1 :=
    fun h hh => (hreach h hh).2.layout.length_found_le hbox h1.le h2.le
  refine ⟨fun h hh => ⟨(hreach h hh).2.sound, (hreach h hh).1⟩, ?_⟩
  have hbound : ∀ h, Head.Reaches cfg o c (.start box p w) h →
      h.asked.length ≤ 2 * ⌊min (right.z1 - left.z1) (left.z2 - right.z2) + 1⌋₊ + 1 := by
    intro h hh
    have hlength := (hreach h hh).2.length_asked
    have hbudget := (hreach h hh).2.layout.budget
    have hfloor := Nat.le_floor (hfound h hh)
    omega
  obtain ⟨last, e, hlast, hended, -, hfuel⟩ := Head.exists_ended hbound
  obtain ⟨hrec, hlaid⟩ := hreach last hlast
  obtain ⟨hcut, hsolves⟩ := Head.ended_inv hended
  have hlength := hlaid.length_asked
  have hbudget := hlaid.layout.budget
  have hbefore := hrec.solves_eq
  refine ⟨last, e, hlast, hended, fun fuel hlt => hfuel fuel ?_, hcut, by omega, hfound last hlast⟩
  change last.asked.length < 0 + fuel
  omega

end Loop

/-- Names each point of a list once, the first one in the ranges, and heeds no weights. -/
def listing : Oracle ℚ (Terms ℚ × List (Point ℚ)) where
  dimension := 0
  follow x d := (x.1.follow d, x.2)
  solve x :=
    match x.2.find? fun z => x.1.first.allows z.z1 && x.1.second.allows z.z2 with
    | some z => (.optimal ⟨z, 0, [], 1⟩, (x.1, x.2.erase z))
    | none => (.infeasible, x)

theorem listing_step (x : Terms ℚ × List (Point ℚ)) (call : Call ℚ) :
    (listing.step x call).1 = x.1.step call ∧ (listing.step x call).2 ⊆ x.2 := by
  cases call with
  | tell d => exact ⟨rfl, List.Subset.refl _⟩
  | solve =>
      simp only [Oracle.step, listing]
      split
      · exact ⟨rfl, List.erase_subset⟩
      · exact ⟨rfl, List.Subset.refl _⟩

theorem listing_after (x : Terms ℚ × List (Point ℚ)) (calls : List (Call ℚ)) :
    (listing.after x calls).1 = x.1.after calls ∧ (listing.after x calls).2 ⊆ x.2 := by
  induction calls generalizing x with
  | nil => exact ⟨rfl, List.Subset.refl _⟩
  | cons call calls ih =>
      obtain ⟨hterms, hsubset⟩ := listing_step x call
      obtain ⟨hterms', hsubset'⟩ := ih (listing.step x call)
      refine ⟨?_, List.Subset.trans hsubset' hsubset⟩
      rw [hterms] at hterms'
      exact hterms'

theorem confined_listing (t : Terms ℚ) {points : List (Point ℚ)}
    (hpoints : ∀ z ∈ points, z.Whole) : listing.Confined (t, points) t := by
  have hbest : ∀ calls best, (listing.solve (listing.after (t, points) calls)).1 =
      .optimal best → best.toPoint ∈ points ∧
        (t.after calls).first.allows best.z1 = true ∧
          (t.after calls).second.allows best.z2 = true := by
    intro calls best h
    obtain ⟨hterms, hsubset⟩ := listing_after (t, points) calls
    rw [← hterms]
    simp only [listing] at h
    split at h
    case h_1 z hfind =>
      cases Answer.optimal.inj h
      have hallowed := List.find?_some hfind
      rw [Bool.and_eq_true] at hallowed
      exact ⟨hsubset (List.mem_of_find?_eq_some hfind), hallowed⟩
    case h_2 => cases h
  exact ⟨fun calls best h => hpoints _ (hbest calls best h).1,
    fun calls best h => (hbest calls best h).2.1, fun calls best h => (hbest calls best h).2.2⟩

/-- The box between two corners, with an oracle that also names a point which another
one in the box dominates. -/
theorem drain_invariant_listing :
    let left : Solution ℚ := ⟨⟨1, 4⟩, true, []⟩
    let right : Solution ℚ := ⟨⟨4, 1⟩, true, []⟩
    let w : World ℚ _ := .start (Terms.initial, [⟨3, 3⟩, ⟨2, 2⟩, ⟨1, 4⟩, ⟨4, 1⟩])
    let p : Progress ℚ := { frontier := .empty 0 }
    let box := Region.ofCorners left right
    let run := Phase.hold listing .still (drain (.plain .splitting) 10 [box]) p w
    (∀ h, Head.Reaches (.plain .splitting) listing .still (.start box p w) h → h.Sound box) ∧
      run.1.1 ≠ .error .outOfFuel ∧ run.2.moment.solves ≤ 9 := by
  intro left right w p box run
  have hwhole : ∀ z ∈ [(⟨3, 3⟩ : Point ℚ), ⟨2, 2⟩, ⟨1, 4⟩, ⟨4, 1⟩], z.Whole := by
    intro z hz
    simp only [List.mem_cons, List.not_mem_nil, or_false] at hz
    rcases hz with rfl | rfl | rfl | rfl
    · exact ⟨⟨3, by norm_num⟩, ⟨3, by norm_num⟩⟩
    · exact ⟨⟨2, by norm_num⟩, ⟨2, by norm_num⟩⟩
    · exact ⟨⟨1, by norm_num⟩, ⟨4, by norm_num⟩⟩
    · exact ⟨⟨4, by norm_num⟩, ⟨1, by norm_num⟩⟩
  have hleft : left.toPoint.Whole := hwhole _ (by simp [left])
  have hright : right.toPoint.Whole := hwhole _ (by simp [right])
  have h1 : left.z1 < right.z1 := by norm_num [left, right]
  have h2 : right.z2 < left.z2 := by norm_num [left, right]
  have hw : w.Tracks listing (Terms.initial, [⟨3, 3⟩, ⟨2, 2⟩, ⟨1, 4⟩, ⟨4, 1⟩]) := rfl
  obtain ⟨hheads, last, e, -, -, hfuel, hcut, hsolves, hfound⟩ :=
    drain_invariant (confined_listing .initial hwhole) hleft hright h1 h2 (.plain .splitting)
      .still p hw
  have hfour : last.found.length ≤ 4 := by
    norm_num [left, right] at hfound
    exact_mod_cast hfound
  have hrun : run = e := hfuel 10 (by omega)
  rw [hrun]
  refine ⟨fun h hh => (hheads h hh).1, hcut, hsolves.trans ?_⟩
  change 0 + (2 * last.found.length + 1) ≤ 9
  omega

end Splitting

end Biobjective
