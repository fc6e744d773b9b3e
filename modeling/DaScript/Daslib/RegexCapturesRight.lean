import DaScript.Daslib.RegexTails

/-!
# Daslib/RegexCapturesRight — captures of a run in which nothing goes stale

What a node leaves in `groups` is read off a match of it: some ranges are there when what follows
begins, and the groups around it add theirs when that has come back.
-/

namespace DaScript.Regex

open Searching (Found)
open Text

namespace Captures

open Memory

/-! ## What a run records -/

section Adds

variable {m m₁ m₂ m' : Memory} {c c₁ c₂ : Caps} {lo hi : ℕ}

/-- From one memory to the other these ranges are added. -/
def Adds (m m' : Memory) (c : Caps) : Prop := ∀ g, m'.ranges g = m.ranges g ++ c g

/-- Only the groups of some nodes capture. -/
def Within (lo hi : ℕ) (c : Caps) : Prop := ∀ g, ¬(lo ≤ g ∧ g < hi) → c g = []

theorem Adds.rfl : Adds m m .nil := fun _ => (List.append_nil _).symm

theorem Adds.trans (h₁ : Adds m m₁ c₁) (h₂ : Adds m₁ m₂ c₂) : Adds m m₂ (c₁.append c₂) := by
  intro g
  rw [h₂ g, h₁ g, List.append_assoc]
  rfl

theorem Adds.of_log (hlog : m₁.log = m.log) (h : Adds m₁ m' c) : Adds m m' c := by
  intro g
  rw [h g, ranges, ranges, hlog]

theorem adds_of_log (hlog : m'.log = m.log) : Adds m m' .nil := by
  intro g
  rw [ranges, ranges, hlog]
  exact (List.append_nil _).symm

theorem within_nil : Within lo hi .nil := fun _ _ => rfl

theorem Within.append (h₁ : Within lo hi c₁) (h₂ : Within lo hi c₂) :
    Within lo hi (c₁.append c₂) := by
  intro g hg
  rw [Caps.append, h₁ g hg, h₂ g hg, List.append_nil]

theorem Within.mono {lo' hi' : ℕ} (h : Within lo' hi' c) (hlo : lo ≤ lo') (hhi : hi' ≤ hi) :
    Within lo hi c := fun g hg => h g fun h' => hg ⟨hlo.trans h'.1, h'.2.trans_le hhi⟩

theorem Within.up (h : Within (lo + 1) hi c) : Within lo hi c := h.mono (Nat.le_succ lo) le_rfl

theorem append_nil (c : Caps) : c.append .nil = c := funext fun g => List.append_nil (c g)

theorem nil_append (c : Caps) : Caps.append .nil c = c := rfl

theorem log_of_since {log : List Capture} (h : (m.since log).stale = false) : m.log = log :=
  not_not.mp (of_decide_eq_false (Bool.or_eq_false_iff.mp h).2)

theorem andThen_eq_pos {r : Result} {f : ℕ → Memory → Result} {k : ℕ} :
    andThen r f = (.pos k, m') ↔ ∃ j m₁, r = (.pos j, m₁) ∧ f j m₁ = (.pos k, m') := by
  obtain ⟨_ | _ | _, m₁⟩ := r <;> simp [andThen]

theorem orElse_eq_pos {r : Result} {f : Memory → Result} {k : ℕ} :
    orElse r f = (.pos k, m') ↔
      r = (.pos k, m') ∨ ∃ m₁, r = (.null, m₁) ∧ f m₁ = (.pos k, m') := by
  obtain ⟨_ | _ | _, m₁⟩ := r <;> simp [orElse]

theorem Leaves.stale {α : Type} {I : Set ℕ} {r : α × Memory} {a : α} (hr : Leaves I m r.2)
    (h : r = (a, m')) (hs : m'.stale = false) : m.stale = false := by
  rw [h] at hr
  exact hr.2 hs

theorem Tidy.stale {f : ℕ → Memory → Result} (hf : Tidy ∅ f) {p : ℕ} {r : Found}
    (h : f p m = (r, m')) (hs : m'.stale = false) : m.stale = false := (hf p m).stale h hs

end Adds

/-- **What the body of a loop records**, where nothing goes stale. -/
def Body (W : Set ℕ) (lo hi : ℕ) (R : ℕ → ℕ → Caps → Prop) (body : ℕ → Memory → Result) : Prop :=
  ∀ p ∈ W, ∀ m j m', body p m = (.pos j, m') → m'.stale = false →
    ∃ c, R p j c ∧ j ∈ W ∧ Adds m m' c ∧ Within lo hi c

section Loops

variable {W : Set ℕ} {lo hi id : ℕ} {R : ℕ → ℕ → Caps → Prop} {body next : ℕ → Memory → Result}
  {k : ℕ} {m m' : Memory} (hbody : Body W lo hi R body) (htidy : Tidy ∅ body)
  (hnext : Tidy ∅ next)
include hbody htidy

theorem exactly_adds {blocked : ℕ → Bool} {n ofs : ℕ} (hofs : ofs ∈ W)
    (h : exactly blocked body n ofs m = (.pos k, m')) (hs : m'.stale = false) :
    ∃ c, TimesWith R n ofs k c ∧ k ∈ W ∧ Adds m m' c ∧ Within lo hi c := by
  induction n generalizing ofs m with
  | zero =>
    cases h
    exact ⟨.nil, ⟨rfl, rfl⟩, hofs, .rfl, within_nil⟩
  | succ n ih =>
    rw [exactly] at h
    split_ifs at h
    · cases h
    · obtain ⟨osym, m₁, hb, h⟩ := andThen_eq_pos.1 h
      have hs₁ := (exactly_leaves htidy blocked n).stale h hs
      obtain ⟨c₁, hR, hosym, hadds₁, hin₁⟩ := hbody ofs hofs m osym m₁ hb hs₁
      obtain ⟨c₂, hn, hk, hadds₂, hin₂⟩ := ih hosym h
      exact ⟨c₁.append c₂, ⟨osym, c₁, c₂, hR, hn, rfl⟩, hk, hadds₁.trans hadds₂,
        hin₁.append hin₂⟩

theorem takeAll_adds {fuel ofs : ℕ} (hofs : ofs ∈ W)
    (h : takeAll id body fuel ofs m = (.pos k, m')) (hs : m'.stale = false) :
    ∃ n c, TimesWith R n ofs k c ∧ k ∈ W ∧ Adds m m' c ∧ Within lo hi c ∧
      m'.tails id = ⟨some k, true⟩ := by
  induction fuel generalizing ofs m with
  | zero => cases h
  | succ fuel ih =>
    rw [takeAll] at h
    rcases hb : body ofs m with ⟨osym | _ | _, m₁⟩
    all_goals rw [hb] at h
    · have hs₁ := (takeAll_leaves (Set.notMem_empty id) htidy fuel).stale h hs
      obtain ⟨c₁, hR, hosym, hadds₁, hin₁⟩ := hbody ofs hofs m osym m₁ hb hs₁
      obtain ⟨n, c₂, hn, hk, hadds₂, hin₂, htail⟩ := ih hosym h
      exact ⟨n + 1, c₁.append c₂, ⟨osym, c₁, c₂, hR, hn, rfl⟩, hk, hadds₁.trans hadds₂,
        hin₁.append hin₂, htail⟩
    · cases h
      exact ⟨0, .nil, ⟨rfl, rfl⟩, hofs, adds_of_log (log_of_since (m := m₁) hs), within_nil,
        tails_setTail _ _ _⟩
    · cases h

theorem furthest_adds {bounded : Bool} {n ofs : ℕ} (hofs : ofs ∈ W)
    (h : furthest id body bounded n ofs m = (.pos k, m')) (hs : m'.stale = false) :
    ∃ t ≤ n, ∃ c, TimesWith R t ofs k c ∧ k ∈ W ∧ Adds m m' c ∧ Within lo hi c ∧
      m'.tails id = ⟨some k, true⟩ := by
  induction n generalizing ofs m with
  | zero =>
    rw [furthest] at h
    split_ifs at h
    · cases h
      exact ⟨0, le_rfl, .nil, ⟨rfl, rfl⟩, hofs, .rfl, within_nil, tails_setTail _ _ _⟩
    · cases h
  | succ n ih =>
    rw [furthest] at h
    rcases hb : body ofs m with ⟨osym | _ | _, m₁⟩
    all_goals
      rw [hb] at h
      dsimp only at h
    · split_ifs at h
      · cases h
        exact ⟨0, Nat.zero_le _, .nil, ⟨rfl, rfl⟩, hofs, adds_of_log (log_of_since (m := m₁) hs),
          within_nil, tails_setTail _ _ _⟩
      · have hs₁ := (furthest_leaves (Set.notMem_empty id) htidy bounded n).stale h hs
        obtain ⟨c₁, hR, hosym, hadds₁, hin₁⟩ := hbody ofs hofs m osym m₁ hb hs₁
        obtain ⟨t, ht, c₂, hn, hk, hadds₂, hin₂, htail⟩ := ih hosym h
        exact ⟨t + 1, Nat.succ_le_succ ht, c₁.append c₂, ⟨osym, c₁, c₂, hR, hn, rfl⟩, hk,
          hadds₁.trans hadds₂, hin₁.append hin₂, htail⟩
    · cases h
      exact ⟨0, Nat.zero_le _, .nil, ⟨rfl, rfl⟩, hofs, adds_of_log (log_of_since (m := m₁) hs),
        within_nil, tails_setTail _ _ _⟩
    · cases h

theorem positions_adds {bounded : Bool} {n ofs : ℕ} {reached l : List (ℕ × List Capture)}
    (hofs : ofs ∈ W) (h : positions body bounded n ofs m reached = (some l, m'))
    (hs : m'.stale = false) {q : ℕ} {log : List Capture} (hq : (q, log) ∈ l) :
    (q, log) ∈ reached ∨ ∃ t ≤ n, ∃ c, TimesWith R t ofs q c ∧ q ∈ W ∧ Within lo hi c ∧
      ∀ m₁ : Memory, m₁.log = log → Adds m m₁ c := by
  induction n generalizing ofs m reached with
  | zero =>
    rw [positions] at h
    split_ifs at h
    · cases h
      exact .inl hq
    · cases h
  | succ n ih =>
    rw [positions] at h
    rcases hb : body ofs m with ⟨osym | _ | _, m₁⟩
    all_goals
      rw [hb] at h
      dsimp only at h
    · split_ifs at h
      · cases h
        exact .inl hq
      · have hs₁ := (positions_leaves htidy bounded n osym m₁ _).stale h hs
        obtain ⟨c₁, hR, hosym, hadds₁, hin₁⟩ := hbody ofs hofs m osym m₁ hb hs₁
        obtain hmem | ⟨t, ht, c₂, hn, hq', hin₂, hadds₂⟩ := ih hosym h
        · obtain hlast | hmem := List.mem_cons.mp hmem
          · obtain ⟨rfl, rfl⟩ := Prod.mk.inj hlast
            refine .inr ⟨1, by omega, c₁, ⟨q, c₁, .nil, hR, ⟨rfl, rfl⟩, (append_nil c₁).symm⟩,
              hosym, hin₁, fun m₂ hlog => ?_⟩
            have h := hadds₁.trans (adds_of_log hlog)
            rwa [append_nil] at h
          · exact .inl hmem
        · exact .inr ⟨t + 1, by omega, c₁.append c₂, ⟨osym, c₁, c₂, hR, hn, rfl⟩, hq',
            hin₁.append hin₂, fun m₂ hlog => hadds₁.trans (hadds₂ m₂ hlog)⟩
    · cases h
      exact .inl hq
    · cases h

include hnext

theorem fewestFirst_adds {fuel ofs : ℕ} (hofs : ofs ∈ W)
    (h : fewestFirst id body next fuel ofs m = (.pos k, m')) (hs : m'.stale = false) :
    ∃ n j c m₁, TimesWith R n ofs j c ∧ next j (m₁.setTail id j) = (.pos k, m') ∧
      j ∈ W ∧ Adds m m₁ c ∧ Within lo hi c := by
  induction fuel generalizing ofs m with
  | zero => cases h
  | succ fuel ih =>
    obtain hfirst | ⟨m₁, -, h⟩ := orElse_eq_pos.1 h
    · exact ⟨0, ofs, .nil, m, ⟨rfl, rfl⟩, hfirst, hofs, .rfl, within_nil⟩
    · obtain ⟨osym, m₂, hb, h⟩ := andThen_eq_pos.1 h
      have hs₂ := (fewestFirst_leaves (Set.notMem_empty id) htidy hnext fuel).stale h hs
      have hlog := log_of_since (htidy.stale hb hs₂)
      obtain ⟨c₁, hR, hosym, hadds₁, hin₁⟩ := hbody ofs hofs _ osym m₂ hb hs₂
      obtain ⟨n, j, c₂, m₃, hn, hj, hW, hadds₂, hin₂⟩ := ih hosym h
      exact ⟨n + 1, j, c₁.append c₂, m₃, ⟨osym, c₁, c₂, hR, hn, rfl⟩, hj, hW,
        (hadds₁.of_log hlog).trans hadds₂, hin₁.append hin₂⟩

theorem nearest_adds {bounded : Bool} {n ofs : ℕ} (hofs : ofs ∈ W)
    (h : nearest id body next bounded n ofs m = (.pos k, m')) (hs : m'.stale = false) :
    ∃ t < n, ∃ j c m₁, TimesWith R t ofs j c ∧ next j (m₁.setTail id j) = (.pos k, m') ∧
      j ∈ W ∧ Adds m m₁ c ∧ Within lo hi c := by
  induction n generalizing ofs m with
  | zero =>
    rw [nearest] at h
    split_ifs at h <;> cases h
  | succ n ih =>
    obtain hfirst | ⟨m₁, -, h⟩ := orElse_eq_pos.1 h
    · exact ⟨0, Nat.succ_pos n, ofs, .nil, m, ⟨rfl, rfl⟩, hfirst, hofs, .rfl, within_nil⟩
    · split_ifs at h
      · cases h
      · obtain ⟨osym, m₂, hb, h⟩ := andThen_eq_pos.1 h
        split_ifs at h
        · cases h
        · have hs₂ := (nearest_leaves (Set.notMem_empty id) htidy hnext bounded n).stale h hs
          have hlog := log_of_since (htidy.stale hb hs₂)
          obtain ⟨c₁, hR, hosym, hadds₁, hin₁⟩ := hbody ofs hofs _ osym m₂ hb hs₂
          obtain ⟨t, ht, j, c₂, m₃, hn, hj, hW, hadds₂, hin₂⟩ := ih hosym h
          exact ⟨t + 1, Nat.succ_lt_succ ht, j, c₁.append c₂, m₃,
            ⟨osym, c₁, c₂, hR, hn, rfl⟩, hj, hW, (hadds₁.of_log hlog).trans hadds₂,
            hin₁.append hin₂⟩

omit hbody htidy in
theorem tryEach_adds {l : List (ℕ × List Capture)}
    (h : tryEach id next l m = (.pos k, m')) (hs : m'.stale = false) :
    ∃ (q : ℕ) (m₁ : Memory), (q, m₁.log) ∈ l ∧ next q (m₁.setTail id q) = (.pos k, m') := by
  induction l generalizing m with
  | nil => cases h
  | cons at' l ih =>
    obtain ⟨q, log⟩ := at'
    obtain hfirst | ⟨m₁, -, h⟩ := orElse_eq_pos.1 h
    · have hs₁ : ((m.since log).setTail id q).stale = false := hnext.stale hfirst hs
      have hlog : (m.since log).log = log := log_of_since (m := m) hs₁
      exact ⟨q, m.since log, by rw [hlog]; exact List.mem_cons_self, hfirst⟩
    · obtain ⟨q', m₂, hmem, hq'⟩ := ih h
      exact ⟨q', m₂, List.mem_cons_of_mem _ hmem, hq'⟩

end Loops

/-! ## Nodes record what they consume -/

/-- **A run is explained by a match**: it arrives by `R`, what follows leads on from there, and of
the ranges of the match some are added before, some after. -/
def Explained (W : Set ℕ) (id hi : ℕ) (R : ℕ → ℕ → Caps → Prop) (next : Next) (str k : ℕ)
    (m m' : Memory) : Prop :=
  ∃ j pre post m₁ m₂, R str j (pre.append post) ∧ j ∈ W ∧ proceed next j m₁ = (.pos k, m₂) ∧
    Adds m m₁ pre ∧ Adds m₂ m' post ∧ Within id hi (pre.append post) ∧
    Leaves (Set.Ico id hi)ᶜ m₂ m' ∧ ((m'.tails id).own = true → (m'.tails id).value = some j)

/-- **What a search finds is explained**, where nothing goes stale. -/
def Explains (W : Set ℕ) (id hi : ℕ) (R : ℕ → ℕ → Caps → Prop) (f : Search) : Prop :=
  ∀ next : Next, TidyNext (Set.Ico id hi) next → ∀ str ∈ W, ∀ m k m',
    f next str m = (.pos k, m') → m'.stale = false → Explained W id hi R next str k m m'

theorem TidyNext.mono {I J : Set ℕ} {next : Next} (h : TidyNext I next) (hJ : J ⊆ I) :
    TidyNext J next := fun f hf => (h f hf).mono hJ

theorem Within.parts {lo hi : ℕ} {pre post : Caps} (h : Within lo hi (pre.append post)) :
    Within lo hi pre ∧ Within lo hi post :=
  ⟨fun g hg => (List.append_eq_nil_iff.mp (h g hg)).1,
    fun g hg => (List.append_eq_nil_iff.mp (h g hg)).2⟩

section Explains

variable {W : Set ℕ} {id hi : ℕ} {R L : ℕ → ℕ → Caps → Prop} {nsub : Search}

theorem explains_before {next : Next} {str j k : ℕ} {m m₁ m' : Memory} {c : Caps}
    (htidy : TidyNext (Set.Ico id hi) next) (hid : id < hi) (hR : R str j c) (hj : j ∈ W)
    (h : proceed next j (m₁.setTail id j) = (.pos k, m')) (hadds : Adds m m₁ c)
    (hin : Within id hi c) :
    Explained W id hi R next str k m m' := by
  refine ⟨j, c, .nil, m₁.setTail id j, m', by rwa [append_nil], hj, h, hadds, .rfl,
    by rwa [append_nil], .rfl, fun _ => ?_⟩
  have hleaves := (proceed_leaves htidy j (m₁.setTail id j)).1 id ⟨le_rfl, hid⟩
  rw [h] at hleaves
  rw [show m'.tails id = _ from hleaves, tails_setTail]

theorem explains_end {str k : ℕ} {m m' : Memory} {c : Caps} (hR : R str k c) (hk : k ∈ W)
    (hadds : Adds m m' c) (hin : Within id hi c)
    (htail : (m'.tails id).own = true → (m'.tails id).value = some k) :
    Explained W id hi R none str k m m' :=
  ⟨k, c, .nil, m', m', by rwa [append_nil], hk, rfl, hadds, .rfl, by rwa [append_nil], .rfl, htail⟩

theorem Explains.body (h : Explains W id hi R nsub) : Body W id hi R (nsub none) := by
  intro p hp m j m' hrun hs
  obtain ⟨j', pre, post, m₁, m₂, hR, hj, hnext, hpre, hpost, hin, -, -⟩ :=
    h none tidyNext_none p hp m j m' hrun hs
  cases hnext
  exact ⟨pre.append post, hR, hj, hpre.trans hpost, hin⟩

theorem reMatch2Leaf_explains (hid : id < hi) {look : Searching.Search}
    (hlook : ∀ p ∈ W, ∀ j, look none p = .pos j → R p j .nil ∧ j ∈ W) :
    Explains W id hi R (reMatch2Leaf id look) := by
  intro next htidy str hstr m k m' h _
  obtain ⟨j, m₁, hj, h⟩ := andThen_eq_pos.1 h
  obtain ⟨hfound, rfl⟩ := Prod.mk.inj hj
  obtain ⟨hR, hW⟩ := hlook str hstr j hfound
  exact explains_before htidy hid hR hW h .rfl within_nil

theorem reMatch2Concat_explains {mid : ℕ} {left right : Search}
    (hl : Explains W (id + 1) mid L left) (hr : Explains W mid hi R right)
    (hrt : ∀ I, (∀ i ∈ I, ¬(mid ≤ i ∧ i < hi)) → TidySearch I right) (hmid : id + 1 ≤ mid)
    (hhi : mid < hi) :
    Explains W id hi (fun i j c => ∃ k c₁ c₂, L i k c₁ ∧ R k j c₂ ∧ c = c₁.append c₂)
      (reMatch2Concat id mid left right) := by
  intro next htidy str hstr m k m' h hs
  obtain ⟨oleft, m₀, hleft, h⟩ := andThen_eq_pos.1 h
  obtain ⟨hk, rfl⟩ := Prod.mk.inj h
  obtain rfl := Found.pos.inj hk
  have hs₀ : m₀.stale = false := hs
  have hnext : TidyNext (Set.Ico (id + 1) mid) (some (right next)) := by
    rintro _ ⟨rfl⟩
    exact hrt _ (fun i hi' h => absurd hi'.2 (by omega)) next
      (htidy.mono (Set.Ico_subset_Ico (by omega) hhi.le))
  obtain ⟨q, pre₁, post₁, m₁, m₂, hL, hq, hright, hpre₁, hpost₁, hin₁, hleaves₁, -⟩ :=
    hl _ hnext str hstr m oleft m₀ hleft hs₀
  have hs₂ : m₂.stale = false := hleaves₁.2 hs₀
  obtain ⟨j, pre₂, post₂, m₃, m₄, hR, hj, hproceed, hpre₂, hpost₂, hin₂, hleaves₂, htail⟩ :=
    hr next (htidy.mono (Set.Ico_subset_Ico (by omega) le_rfl)) q hq m₁ oleft m₂ hright hs₂
  -- a group records on one side only, so its ranges on the other are none
  have horder : (pre₁.append pre₂).append (post₂.append post₁)
      = (pre₁.append post₁).append (pre₂.append post₂) := by
    funext g
    by_cases hg : id + 1 ≤ g ∧ g < mid
    · have hg' : ¬(mid ≤ g ∧ g < hi) := fun h => absurd h.1 (by omega)
      have hpre := hin₂.parts.1 g hg'
      have hpost := hin₂.parts.2 g hg'
      simp only [Caps.append, hpre, hpost, List.append_nil, List.nil_append]
    · have hpre := hin₁.parts.1 g hg
      have hpost := hin₁.parts.2 g hg
      simp only [Caps.append, hpre, hpost, List.append_nil, List.nil_append]
  have hin : Within id hi ((pre₁.append pre₂).append (post₂.append post₁)) := by
    rw [horder]
    exact (hin₁.mono (Nat.le_succ _) hhi.le).append (hin₂.mono (by omega) le_rfl)
  refine ⟨j, pre₁.append pre₂, post₂.append post₁, m₃, m₄,
    ⟨q, _, _, hL, hR, horder⟩, hj, hproceed, hpre₁.trans hpre₂, hpost₂.trans hpost₁, hin,
    ⟨fun i hi' => ?_, fun h => hleaves₂.2 (hleaves₁.2 h)⟩, ?_⟩
  · have hne : i ≠ id := fun h => hi' ⟨h.ge, by omega⟩
    have hl' : i ∈ (Set.Ico (id + 1) mid)ᶜ := fun h => hi' ⟨by have := h.1; omega, h.2.trans hhi⟩
    have hr' : i ∈ (Set.Ico mid hi)ᶜ := fun h => hi' ⟨by have := h.1; omega, h.2⟩
    rw [tails_copyTail_of_ne hne, hleaves₁.1 i hl', hleaves₂.1 i hr']
  · have hmid' : mid ∈ (Set.Ico (id + 1) mid)ᶜ := fun h => absurd h.2 (lt_irrefl _)
    rw [tails_copyTail, hleaves₁.1 mid hmid']
    exact htail

theorem reMatch2Group_explains (hid : id + 1 < hi) (index : ℤ)
    (hsub : Explains W (id + 1) hi R nsub) :
    Explains W id hi (fun i j c => ∃ c', R i j c' ∧
      c = if 0 ≤ index then c'.append (.single id i j) else c') (reMatch2Group id index nsub) := by
  intro next htidy str hstr m k m' h hs
  obtain ⟨osub, m₀, hrun, h⟩ := andThen_eq_pos.1 h
  obtain ⟨hk, rfl⟩ := Prod.mk.inj h
  obtain rfl := Found.pos.inj hk
  have hstale : (if 0 ≤ index then m₀.record id (id + 1) str else m₀).stale = false := hs
  have hs₀ : m₀.stale = false := by
    split_ifs at hstale
    · exact (Bool.or_eq_false_iff.mp hstale).1
    · exact hstale
  obtain ⟨j, pre, post, m₁, m₂, hR, hj, hproceed, hpre, hpost, hin, hleaves, htail⟩ :=
    hsub next (htidy.mono (Set.Ico_subset_Ico (Nat.le_succ _) le_rfl)) str hstr m osub m₀ hrun hs₀
  have hin' : Within id hi (pre.append post) := hin.up
  have hsingle : Within id hi (.single id str j) := by
    intro g hg
    exact if_neg fun h => hg ⟨h.ge, by omega⟩
  have hout : ∀ i ∈ (Set.Ico id hi)ᶜ, i ≠ id ∧ i ∈ (Set.Ico (id + 1) hi)ᶜ := fun i hi' =>
    ⟨fun h => hi' ⟨h.ge, by omega⟩, fun h => hi' ⟨by have := h.1; omega, h.2⟩⟩
  by_cases hindex : 0 ≤ index
  · rw [if_pos hindex] at hstale ⊢
    have hown : (m₀.tails (id + 1)).own = true := by
      have h := (Bool.or_eq_false_iff.mp hstale).2
      rwa [Bool.not_eq_false'] at h
    have hrecord : Adds m₀ ((m₀.record id (id + 1) str).loseTail id) (.single id str j) := by
      intro g
      change ((m₀.log ++ [_]).filter _).map _ = _
      rw [List.filter_append, List.map_append]
      refine congrArg _ ?_
      by_cases hg : g = id
      · subst hg
        rw [Caps.single, if_pos rfl, htail hown]
        simp
      · rw [Caps.single, if_neg hg]
        simp [Ne.symm hg]
    have happend : pre.append (post.append (.single id str j))
        = (pre.append post).append (.single id str j) :=
      funext fun g => (List.append_assoc (pre g) (post g) _).symm
    refine ⟨j, pre, post.append (.single id str j), m₁, m₂, ⟨_, hR, ?_⟩, hj, hproceed, hpre,
      hpost.trans hrecord, ?_, ⟨fun i hi' => ?_, fun h => hleaves.2 (by
        exact (Bool.or_eq_false_iff.mp h).1)⟩, ?_⟩
    · rw [if_pos hindex, happend]
    · rw [happend]
      exact hin'.append hsingle
    · rw [tails_loseTail_of_ne (hout i hi').1]
      exact hleaves.1 i (hout i hi').2
    · rw [tails_loseTail]
      exact fun h => by cases h
  · rw [if_neg hindex]
    refine ⟨j, pre, post, m₁, m₂, ⟨_, hR, (if_neg hindex).symm⟩, hj, hproceed, hpre, hpost, hin',
      ⟨fun i hi' => ?_, fun h => hleaves.2 h⟩, ?_⟩
    · rw [tails_loseTail_of_ne (hout i hi').1]
      exact hleaves.1 i (hout i hi').2
    · rw [tails_loseTail]
      exact fun h => by cases h

theorem reMatch2Question_explains (hid : id < hi) (hsub : Explains W (id + 1) hi R nsub) :
    Explains W id hi (fun i j c => (j = i ∧ c = .nil) ∨ R i j c)
      (reMatch2Question id nsub) := by
  intro next htidy str hstr m k m' h hs
  obtain ⟨tail, m₀, hor, h⟩ := andThen_eq_pos.1 h
  have hs₀ : m₀.stale = false := (proceed_leaves htidy tail (m₀.setTail id tail)).stale h hs
  obtain hrun | ⟨m₁, -, hzero⟩ := orElse_eq_pos.1 hor
  · obtain ⟨c, hR, hW, hadds, hin⟩ := hsub.body str hstr m tail m₀ hrun hs₀
    exact explains_before htidy hid (.inr hR) hW h hadds hin.up
  · obtain ⟨htail, rfl⟩ := Prod.mk.inj hzero
    obtain rfl := Found.pos.inj htail
    exact explains_before htidy hid
      (.inl ⟨rfl, rfl⟩) hstr h (adds_of_log (log_of_since (m := m₁) hs₀)) within_nil

theorem reMatch2QuestionLazy_explains (hid : id < hi) (hsub : Explains W (id + 1) hi R nsub)
    (hst : TidySearch ∅ nsub) :
    Explains W id hi (fun i j c => (j = i ∧ c = .nil) ∨ R i j c)
      (reMatch2QuestionLazy id nsub) := by
  intro next htidy str hstr m k m' h hs
  cases next with
  | some node2 =>
    obtain hzero | ⟨m₁, -, h⟩ := orElse_eq_pos.1 h
    · exact explains_before htidy hid (.inl ⟨rfl, rfl⟩) hstr hzero .rfl within_nil
    · obtain ⟨tail, m₂, hrun, h⟩ := andThen_eq_pos.1 h
      have hs₂ : m₂.stale = false := (htidy node2 rfl tail (m₂.setTail id tail)).stale h hs
      have hlog := log_of_since ((hst none tidyNext_none).stale hrun hs₂)
      obtain ⟨c, hR, hW, hadds, hin⟩ := hsub.body str hstr _ tail m₂ hrun hs₂
      exact explains_before htidy hid (.inr hR) hW h (hadds.of_log hlog) hin.up
  | none =>
    rw [reMatch2QuestionLazy] at h
    rcases hrun : nsub none str m with ⟨tail | _ | _, m₀⟩
    all_goals
      rw [hrun] at h
      cases h
    · exact explains_end (.inl ⟨rfl, rfl⟩) hstr
        (adds_of_log (log_of_since (m := m₀) hs)) within_nil fun h => by simp at h
    · exact explains_end (.inl ⟨rfl, rfl⟩) hstr
        (adds_of_log (log_of_since (m := m₀) hs)) within_nil fun h => by simp at h

theorem TimesWith.add {n t i j k : ℕ} {c₁ c₂ : Caps} (hn : TimesWith R n i j c₁)
    (ht : TimesWith R t j k c₂) : TimesWith R (n + t) i k (c₁.append c₂) := by
  induction n generalizing i c₁ with
  | zero =>
    obtain ⟨rfl, rfl⟩ := hn
    rwa [Nat.zero_add, nil_append]
  | succ n ih =>
    obtain ⟨q, d₁, d₂, hR, hn, rfl⟩ := hn
    rw [Nat.succ_add]
    exact ⟨q, d₁, d₂.append c₂, hR, ih hn, funext fun g => List.append_assoc _ _ _⟩

section Loops

variable {body : ℕ → Memory → Result} {s : List UInt8} {fuel : ℕ} (hid : id < hi)
  (hbody : Body W (id + 1) hi R body) (htidy : Tidy ∅ body)
include hid hbody htidy

theorem reMatch2Star_explains :
    Explains W id hi (fun i j c => ∃ n, TimesWith R n i j c) (reMatch2Star fuel id body) := by
  intro next hnext str hstr m k m' h hs
  cases next with
  | some node2 =>
    obtain ⟨n, j, c, m₁, hn, hj, hW, hadds, hin⟩ := fewestFirst_adds hbody htidy
      ((hnext node2 rfl).mono (Set.empty_subset _)) hstr h hs
    exact explains_before hnext hid ⟨n, hn⟩ hW hj hadds hin.up
  | none =>
    obtain ⟨n, c, hn, hW, hadds, hin, htail⟩ := takeAll_adds hbody htidy hstr h hs
    exact explains_end ⟨n, hn⟩ hW hadds hin.up fun _ => by rw [htail]

theorem reMatch2StarLazy_explains :
    Explains W id hi (fun i j c => ∃ n, TimesWith R n i j c) (reMatch2StarLazy fuel id body) := by
  intro next hnext str hstr m k m' h hs
  cases next with
  | some node2 =>
    exact reMatch2Star_explains hid hbody htidy (some node2) hnext str hstr m k m' h hs
  | none =>
    exact explains_before hnext hid ⟨0, rfl, rfl⟩ hstr h .rfl within_nil

theorem reMatch2Plus_explains :
    Explains W id hi (fun i j c => ∃ n, 1 ≤ n ∧ TimesWith R n i j c)
      (reMatch2Plus s fuel id body) := by
  intro next hnext str hstr m k m' h hs
  rw [reMatch2Plus] at h
  split_ifs at h
  · cases h
  · obtain ⟨osym, m₀, hb, h⟩ := andThen_eq_pos.1 h
    cases next with
    | some node2 =>
      have hnext₀ := (hnext node2 rfl).mono (Set.empty_subset _)
      have hs₀ := (fewestFirst_leaves (Set.notMem_empty id) htidy hnext₀ fuel).stale h hs
      obtain ⟨c₁, hR, hosym, hadds₁, hin₁⟩ := hbody str hstr m osym m₀ hb hs₀
      obtain ⟨n, j, c, m₁, hn, hj, hW, hadds, hin⟩ := fewestFirst_adds hbody htidy hnext₀ hosym h hs
      exact explains_before hnext hid
        ⟨n + 1, Nat.succ_pos n, osym, c₁, c, hR, hn, rfl⟩ hW hj (hadds₁.trans hadds)
        (hin₁.append hin).up
    | none =>
      have hs₀ := (takeAll_leaves (Set.notMem_empty id) htidy fuel).stale h hs
      obtain ⟨c₁, hR, hosym, hadds₁, hin₁⟩ := hbody str hstr m osym m₀ hb hs₀
      obtain ⟨n, c, hn, hW, hadds, hin, htail⟩ := takeAll_adds hbody htidy hosym h hs
      exact explains_end ⟨n + 1, Nat.succ_pos n, osym, c₁, c, hR, hn, rfl⟩ hW (hadds₁.trans hadds)
        (hin₁.append hin).up fun _ => by rw [htail]

theorem reMatch2PlusLazy_explains :
    Explains W id hi (fun i j c => ∃ n, 1 ≤ n ∧ TimesWith R n i j c)
      (reMatch2PlusLazy s fuel id body) := by
  intro next hnext str hstr m k m' h hs
  cases next with
  | some node2 =>
    exact reMatch2Plus_explains hid hbody htidy (some node2) hnext str hstr m k m' h hs
  | none =>
    rw [reMatch2PlusLazy] at h
    split_ifs at h
    · cases h
    · obtain ⟨osym, m₀, hb, h⟩ := andThen_eq_pos.1 h
      cases h
      obtain ⟨c, hR, hosym, hadds, hin⟩ := hbody str hstr m k m₀ hb hs
      exact explains_end ⟨1, le_rfl, k, c, .nil, hR, ⟨rfl, rfl⟩, (append_nil c).symm⟩ hosym hadds
        hin.up fun _ => by rw [tails_setTail]

theorem reMatch2Repeat_explains (zeroWidth : Bool) (minRep maxRep : ℤ) :
    Explains W id hi (fun i j c => ∃ n, Counted minRep maxRep n ∧ TimesWith R n i j c)
      (reMatch2Repeat s fuel id zeroWidth minRep maxRep body) := by
  intro next hnext str hstr m k m' h hs
  obtain ⟨ofs, m₀, hexactly, h⟩ := andThen_eq_pos.1 h
  cases next with
  | some node2 =>
    have hnext₀ := (hnext node2 rfl).mono (Set.empty_subset _)
    dsimp only at h
    rcases hpos : positions body (decide (maxRep ≠ -1)) (remaining fuel minRep maxRep) ofs m₀
      [(ofs, m₀.log)] with ⟨_ | reached, m₁⟩
    all_goals
      rw [hpos] at h
      dsimp only at h
    · cases h
    · have hs₁ := (tryEach_leaves (Set.notMem_empty id) hnext₀ reached m₁).stale h hs
      have hs₀ := (positions_leaves htidy _ _ ofs m₀ _).stale hpos hs₁
      obtain ⟨c₁, hn, hofs, hadds₁, hin₁⟩ := exactly_adds hbody htidy hstr hexactly hs₀
      obtain ⟨q, m₂, hmem, hq⟩ := tryEach_adds hnext₀ h hs
      obtain hhere | ⟨t, ht, c₂, htimes, hW, hin₂, hadds₂⟩ :=
        positions_adds hbody htidy hofs hpos hs₁ hmem
      · obtain ⟨rfl, hlog⟩ := Prod.mk.inj (List.mem_singleton.mp hhere)
        have hadds := hadds₁.trans (adds_of_log hlog)
        rw [append_nil] at hadds
        exact explains_before hnext hid
          ⟨_, ⟨le_rfl, fun _ => Nat.le_add_right _ _⟩, hn⟩ hofs hq hadds
          hin₁.up
      · exact explains_before hnext hid
          ⟨_, counted_of_le ht, hn.add htimes⟩ hW hq (hadds₁.trans (hadds₂ m₂ rfl))
          (hin₁.append hin₂).up
  | none =>
    have hs₀ := (furthest_leaves (Set.notMem_empty id) htidy _ _).stale h hs
    obtain ⟨c₁, hn, hofs, hadds₁, hin₁⟩ := exactly_adds hbody htidy hstr hexactly hs₀
    obtain ⟨t, ht, c₂, htimes, hW, hadds₂, hin₂, htail⟩ := furthest_adds hbody htidy hofs h hs
    exact explains_end ⟨_, counted_of_le ht, hn.add htimes⟩ hW (hadds₁.trans hadds₂)
      (hin₁.append hin₂).up fun _ => by rw [htail]

theorem reMatch2RepeatLazy_explains (zeroWidth : Bool) (minRep maxRep : ℤ) :
    Explains W id hi (fun i j c => ∃ n, Counted minRep maxRep n ∧ TimesWith R n i j c)
      (reMatch2RepeatLazy s fuel id zeroWidth minRep maxRep body) := by
  intro next hnext str hstr m k m' h hs
  obtain ⟨ofs, m₀, hexactly, h⟩ := andThen_eq_pos.1 h
  cases next with
  | some node2 =>
    have hnext₀ := (hnext node2 rfl).mono (Set.empty_subset _)
    have hs₀ := (nearest_leaves (Set.notMem_empty id) htidy hnext₀ _ _).stale h hs
    obtain ⟨c₁, hn, hofs, hadds₁, hin₁⟩ := exactly_adds hbody htidy hstr hexactly hs₀
    obtain ⟨t, ht, j, c₂, m₁, htimes, hj, hW, hadds₂, hin₂⟩ :=
      nearest_adds hbody htidy hnext₀ hofs h hs
    exact explains_before hnext hid ⟨_, counted_of_le (lt_of_remainingLazy ht), hn.add htimes⟩ hW hj
      (hadds₁.trans hadds₂) (hin₁.append hin₂).up
  | none =>
    cases h
    obtain ⟨c₁, hn, hofs, hadds₁, hin₁⟩ := exactly_adds hbody htidy hstr hexactly hs
    exact explains_end ⟨_, ⟨le_rfl, fun _ => Nat.le_add_right _ _⟩, hn⟩ hofs hadds₁
      hin₁.up fun _ => by rw [tails_setTail]

end Loops

theorem reMatch2Lookahead_explains (hid : id < hi) (hsub : Explains W (id + 1) hi R nsub) :
    Explains W id hi (fun i j c => (∃ k, R i k c) ∧ j = i) (reMatch2Lookahead id nsub) := by
  intro next hnext str hstr m k m' h hs
  obtain ⟨tail, m₀, hrun, h⟩ := andThen_eq_pos.1 h
  have hs₀ : m₀.stale = false := (proceed_leaves hnext str (m₀.setTail id str)).stale h hs
  obtain ⟨c, hR, -, hadds, hin⟩ := hsub.body str hstr m tail m₀ hrun hs₀
  exact explains_before hnext hid ⟨⟨tail, hR⟩, rfl⟩ hstr h hadds hin.up

theorem reMatch2NegativeLookahead_explains (hid : id < hi) (nsub : Search) :
    Explains W id hi (fun i j c => j = i ∧ c = .nil) (reMatch2NegativeLookahead id nsub) := by
  intro next hnext str hstr m k m' h hs
  rw [reMatch2NegativeLookahead] at h
  rcases hrun : nsub none str m with ⟨tail | _ | _, m₀⟩
  all_goals
    rw [hrun] at h
    dsimp only at h
  · cases h
  · have hs₀ : (m₀.since m.log).stale = false :=
      (proceed_leaves hnext str ((m₀.since m.log).setTail id str)).stale h hs
    exact explains_before hnext hid ⟨rfl, rfl⟩ hstr h
      (adds_of_log (log_of_since (m := m₀) hs₀)) within_nil
  · cases h

end Explains

/-! ## The whole tree -/

section Tree

variable {regex : Regex} {s : List UInt8} {fuel : ℕ}

theorem leaf_explains (node : ReNode) {id hi : ℕ} (hid : id < hi) {look : Searching.Search}
    (hlook : Searching.Sound (Set.Icc 0 s.length) (Matches regex s false node) look) :
    Explains (Set.Icc 0 s.length) id hi
      (fun i j c => Matches regex s false node i j ∧ c = .nil) (reMatch2Leaf id look) := by
  refine reMatch2Leaf_explains hid fun p hp j hj => ?_
  have h := hlook.body p hp j hj
  exact ⟨⟨h, rfl⟩, (matches_stays node p hp j h).2⟩

theorem plusBody_body {subexpr : ReNode} {id hi : ℕ} {nsub : Search}
    (hsub : Explains (Set.Icc 0 s.length) id hi (Derives regex s subexpr id) nsub) :
    Body (Set.Icc 0 s.length) id hi (Derives regex s subexpr id) (plusBody s subexpr nsub) := by
  cases subexpr with
  | set cset =>
    intro p hp m j m' h _
    obtain ⟨hfound, rfl⟩ := Prod.mk.inj h
    have hmatch : Matches regex s false (.set cset) p j := setStep_eq_pos.mp hfound
    exact ⟨.nil, ⟨hmatch, rfl⟩, (matches_stays _ p hp j hmatch).2, .rfl, within_nil⟩
  | _ => exact hsub.body

mutual

theorem matchNode_explains (node : ReNode) (id : ℕ) {hi : ℕ} (hhi : id + size node = hi) :
    Explains (Set.Icc 0 s.length) id hi (Derives regex s node id)
      (matchNode regex s fuel node id) := by
  have htidy (subexpr : ReNode) (i : ℕ) : TidySearch ∅ (matchNode regex s fuel subexpr i) :=
    matchNode_tidy regex s fuel subexpr i fun _ h => h.elim
  have hid : id < hi := by
    have hpos := size_pos node
    omega
  cases node with
  | char first others => exact leaf_explains _ hid (reMatch2Char_sound first others)
  | set cset => exact leaf_explains _ hid (reMatch2Set_sound cset)
  | any => exact leaf_explains _ hid reMatch2Any_sound
  | eos => exact leaf_explains _ hid reMatch2Eos_sound
  | bos => exact leaf_explains _ hid reMatch2Bos_sound
  | wordBoundary => exact leaf_explains _ hid reMatch2WordBoundary_sound
  | nonWordBoundary => exact leaf_explains _ hid reMatch2NonWordBoundary_sound
  | group index text subexpr =>
    rw [size] at hhi
    have hpos := size_pos subexpr
    exact reMatch2Group_explains (by omega) index (matchNode_explains subexpr (id + 1) (by omega))
  | plus lazy subexpr =>
    rw [size] at hhi
    have hsub := matchNode_explains subexpr (id + 1) (show id + 1 + size subexpr = hi by omega)
    cases lazy
    · exact reMatch2Plus_explains hid (plusBody_body hsub)
        (plusBody_leaves s subexpr (htidy subexpr (id + 1)))
    · exact reMatch2PlusLazy_explains hid hsub.body (htidy subexpr (id + 1) none tidyNext_none)
  | star lazy subexpr =>
    rw [size] at hhi
    have hsub := matchNode_explains subexpr (id + 1) (show id + 1 + size subexpr = hi by omega)
    cases lazy
    · exact reMatch2Star_explains hid hsub.body (htidy subexpr (id + 1) none tidyNext_none)
    · exact reMatch2StarLazy_explains hid hsub.body (htidy subexpr (id + 1) none tidyNext_none)
  | question lazy subexpr =>
    rw [size] at hhi
    have hsub := matchNode_explains subexpr (id + 1) (show id + 1 + size subexpr = hi by omega)
    cases lazy
    · exact reMatch2Question_explains hid hsub
    · exact reMatch2QuestionLazy_explains hid hsub (htidy subexpr (id + 1))
  | concat left right =>
    rw [size] at hhi
    have hpos := size_pos right
    refine reMatch2Concat_explains (matchNode_explains left (id + 1) rfl)
      (matchNode_explains right (id + 1 + size left) (by omega)) (fun I hI => ?_) (by omega)
      (by omega)
    exact matchNode_tidy regex s fuel right _ fun i hin h => hI i hin ⟨h.1, by omega⟩
  | union all =>
    rw [size] at hhi
    exact matchNodes_explains all (id + 1) (Nat.lt_succ_self id) (by omega)
  | repeated minRep maxRep lazy subexpr =>
    rw [size] at hhi
    have hsub := matchNode_explains subexpr (id + 1) (show id + 1 + size subexpr = hi by omega)
    cases lazy
    · exact reMatch2Repeat_explains hid hsub.body (htidy subexpr (id + 1) none tidyNext_none) _ _ _
    · exact reMatch2RepeatLazy_explains hid hsub.body (htidy subexpr (id + 1) none tidyNext_none)
        _ _ _
  | lookahead subexpr =>
    rw [size] at hhi
    exact reMatch2Lookahead_explains hid (matchNode_explains subexpr (id + 1) (by omega))
  | negativeLookahead subexpr => exact reMatch2NegativeLookahead_explains hid _

theorem matchNodes_explains (nodes : List ReNode) (id : ℕ) {unionId hi : ℕ} (hid : unionId < id)
    (hhi : id + sizes nodes ≤ hi) :
    Explains (Set.Icc 0 s.length) unionId hi (DerivesOne regex s nodes id)
      (reMatch2Union unionId (matchNodes regex s fuel nodes id)) := by
  intro next hnext str hstr m k m' h hs
  cases nodes with
  | nil => cases h
  | cons node nodes =>
    rw [sizes] at hhi
    obtain hfirst | ⟨m₁, -, h⟩ := orElse_eq_pos.1 h
    · obtain ⟨osub, m₀, hrun, h⟩ := andThen_eq_pos.1 hfirst
      obtain ⟨hk, rfl⟩ := Prod.mk.inj h
      obtain rfl := Found.pos.inj hk
      obtain ⟨j, pre, post, m₁, m₂, hR, hj, hproceed, hpre, hpost, hin, hleaves, htail⟩ :=
        matchNode_explains node id rfl next
          (hnext.mono (Set.Ico_subset_Ico hid.le (by omega))) str hstr m osub m₀ hrun hs
      refine ⟨j, pre, post, m₁, m₂, .inl hR, hj, hproceed, hpre, hpost,
        hin.mono hid.le (by omega), ⟨fun i hi' => ?_, fun h => hleaves.2 h⟩, ?_⟩
      · have hne : i ≠ unionId := fun h => hi' ⟨h.ge, by omega⟩
        have hout : i ∈ (Set.Ico id (id + size node))ᶜ := fun h =>
          hi' ⟨hid.le.trans h.1, h.2.trans_le (by omega)⟩
        rw [tails_copyTail_of_ne hne, hleaves.1 i hout]
      · rw [tails_copyTail]
        exact htail
    · have hs₁ : (m₁.since m.log).stale = false := by
        have htidy := matchNodes_tidy regex s fuel nodes (id + size node) unionId (I := ∅)
          (Set.notMem_empty _) (fun _ h => h.elim) next (hnext.mono (Set.empty_subset _))
        exact htidy.stale h hs
      obtain ⟨j, pre, post, m₂, m₃, hR, hj, hproceed, hpre, hrest⟩ :=
        matchNodes_explains nodes (id + size node) (by omega) (by omega) next hnext str hstr
          _ k m' h hs
      exact ⟨j, pre, post, m₂, m₃, .inr hR, hj, hproceed, hpre.of_log (log_of_since hs₁), hrest⟩

end

end Tree

/-! ## Captures of a match -/

mutual

/-- No group in the node captures. -/
def Captureless : ReNode → Prop
  | .group index _ subexpr => index < 0 ∧ Captureless subexpr
  | .plus _ subexpr | .star _ subexpr | .question _ subexpr | .repeated _ _ _ subexpr
  | .lookahead subexpr | .negativeLookahead subexpr => Captureless subexpr
  | .concat left right => Captureless left ∧ Captureless right
  | .union all => CapturelessAll all
  | .char _ _ | .set _ | .any | .eos | .bos | .wordBoundary | .nonWordBoundary => True

def CapturelessAll : List ReNode → Prop
  | [] => True
  | node :: nodes => Captureless node ∧ CapturelessAll nodes

end

mutual

/-- **No group in a lookahead captures.** -/
def LooksCaptureless : ReNode → Prop
  | .group _ _ subexpr | .plus _ subexpr | .star _ subexpr | .question _ subexpr
  | .repeated _ _ _ subexpr => LooksCaptureless subexpr
  | .lookahead subexpr | .negativeLookahead subexpr => Captureless subexpr
  | .concat left right => LooksCaptureless left ∧ LooksCaptureless right
  | .union all => LooksCapturelessAll all
  | .char _ _ | .set _ | .any | .eos | .bos | .wordBoundary | .nonWordBoundary => True

def LooksCapturelessAll : List ReNode → Prop
  | [] => True
  | node :: nodes => LooksCaptureless node ∧ LooksCapturelessAll nodes

end

section Inside

variable {regex : Regex} {s : List UInt8} {R : ℕ → ℕ → Caps → Prop} {W : Set ℕ} {i j k : ℕ}
  {c c₁ c₂ : Caps}

/-- All ranges are between two positions. -/
def Inside (i j : ℕ) (c : Caps) : Prop :=
  ∀ g, ∀ r ∈ c g, ∃ y, r.2 = some y ∧ i ≤ r.1 ∧ r.1 ≤ y ∧ y ≤ j

theorem inside_nil : Inside i j .nil := fun _ _ h => absurd h List.not_mem_nil

theorem Inside.append (h₁ : Inside i k c₁) (h₂ : Inside k j c₂) (hik : i ≤ k) (hkj : k ≤ j) :
    Inside i j (c₁.append c₂) := by
  intro g r hr
  obtain hr | hr := List.mem_append.mp hr
  · obtain ⟨y, hy, hx, hxy, hyk⟩ := h₁ g r hr
    exact ⟨y, hy, hx, hxy, hyk.trans hkj⟩
  · obtain ⟨y, hy, hx, hxy, hyj⟩ := h₂ g r hr
    exact ⟨y, hy, hik.trans hx, hxy, hyj⟩

theorem inside_single (id : ℕ) (hij : i ≤ j) : Inside i j (.single id i j) := by
  intro g r hr
  rw [Caps.single] at hr
  split_ifs at hr
  · obtain rfl := List.mem_singleton.mp hr
    exact ⟨j, rfl, le_rfl, hij, le_rfl⟩
  · exact absurd hr List.not_mem_nil

theorem TimesWith.inside
    (hR : ∀ i ∈ W, ∀ j c, R i j c → i ≤ j ∧ j ∈ W ∧ Inside i j c) {n : ℕ} (hi : i ∈ W)
    (h : TimesWith R n i j c) : i ≤ j ∧ j ∈ W ∧ Inside i j c := by
  induction n generalizing i c with
  | zero =>
    obtain ⟨rfl, rfl⟩ := h
    exact ⟨le_rfl, hi, inside_nil⟩
  | succ n ih =>
    obtain ⟨q, d₁, d₂, hstep, hn, rfl⟩ := h
    obtain ⟨hiq, hq, hin₁⟩ := hR i hi q d₁ hstep
    obtain ⟨hqj, hj, hin₂⟩ := ih hq hn
    exact ⟨hiq.trans hqj, hj, hin₁.append hin₂ hiq hqj⟩

theorem TimesWith.nil (hR : ∀ i j c, R i j c → c = .nil) {n : ℕ} (h : TimesWith R n i j c) :
    c = .nil := by
  induction n generalizing i c with
  | zero => exact h.2
  | succ n ih =>
    obtain ⟨q, d₁, d₂, hstep, hn, rfl⟩ := h
    rw [hR i q d₁ hstep, ih hn, nil_append]

mutual

theorem Derives.captureless (node : ReNode) (hnode : Captureless node) {id i j : ℕ} {c : Caps}
    (h : Derives regex s node id i j c) : c = .nil := by
  cases node with
  | group index text subexpr =>
    obtain ⟨c', h, rfl⟩ := h
    rw [if_neg (not_le.mpr hnode.1)]
    exact Derives.captureless subexpr hnode.2 h
  | plus lazy subexpr =>
    obtain ⟨n, -, hn⟩ := h
    exact hn.nil fun _ _ _ => Derives.captureless subexpr hnode
  | star lazy subexpr =>
    obtain ⟨n, hn⟩ := h
    exact hn.nil fun _ _ _ => Derives.captureless subexpr hnode
  | question lazy subexpr =>
    obtain ⟨-, hnil⟩ | h := h
    · exact hnil
    · exact Derives.captureless subexpr hnode h
  | concat left right =>
    obtain ⟨k, c₁, c₂, hl, hr, rfl⟩ := h
    rw [Derives.captureless left hnode.1 hl, Derives.captureless right hnode.2 hr, nil_append]
  | union all => exact DerivesOne.captureless all hnode h
  | repeated minRep maxRep lazy subexpr =>
    obtain ⟨n, -, hn⟩ := h
    exact hn.nil fun _ _ _ => Derives.captureless subexpr hnode
  | lookahead subexpr =>
    obtain ⟨⟨k, h⟩, -⟩ := h
    exact Derives.captureless subexpr hnode h
  | char | set | any | eos | bos | wordBoundary | nonWordBoundary | negativeLookahead =>
    exact h.2

theorem DerivesOne.captureless (nodes : List ReNode) (hnodes : CapturelessAll nodes)
    {id i j : ℕ} {c : Caps} (h : DerivesOne regex s nodes id i j c) : c = .nil := by
  cases nodes with
  | nil => exact h.elim
  | cons node nodes =>
    obtain h | h := h
    · exact Derives.captureless node hnodes.1 h
    · exact DerivesOne.captureless nodes hnodes.2 h

end

theorem leaf_inside {node : ReNode} (hi : i ∈ Set.Icc 0 s.length)
    (h : Matches regex s false node i j ∧ c = .nil) :
    i ≤ j ∧ j ∈ Set.Icc 0 s.length ∧ Inside i j c := by
  obtain ⟨hmatch, rfl⟩ := h
  obtain ⟨hij, hj⟩ := matches_stays node i hi j hmatch
  exact ⟨hij, hj, inside_nil⟩

mutual

theorem Derives.inside (node : ReNode) (hnode : LooksCaptureless node) {id i j : ℕ} {c : Caps}
    (hi : i ∈ Set.Icc 0 s.length) (h : Derives regex s node id i j c) :
    i ≤ j ∧ j ∈ Set.Icc 0 s.length ∧ Inside i j c := by
  cases node with
  | char | set | any | eos | bos | wordBoundary | nonWordBoundary => exact leaf_inside hi h
  | group index text subexpr =>
    obtain ⟨c', h, rfl⟩ := h
    obtain ⟨hij, hj, hin⟩ := Derives.inside subexpr hnode hi h
    refine ⟨hij, hj, ?_⟩
    split_ifs
    · intro g r hr
      obtain hr | hr := List.mem_append.mp hr
      · exact hin g r hr
      · exact inside_single id hij g r hr
    · exact hin
  | plus lazy subexpr =>
    obtain ⟨n, -, hn⟩ := h
    exact hn.inside (fun _ hi _ _ => Derives.inside subexpr hnode hi) hi
  | star lazy subexpr =>
    obtain ⟨n, hn⟩ := h
    exact hn.inside (fun _ hi _ _ => Derives.inside subexpr hnode hi) hi
  | question lazy subexpr =>
    obtain ⟨rfl, rfl⟩ | h := h
    · exact ⟨le_rfl, hi, inside_nil⟩
    · exact Derives.inside subexpr hnode hi h
  | concat left right =>
    obtain ⟨k, c₁, c₂, hl, hr, rfl⟩ := h
    obtain ⟨hik, hk, hin₁⟩ := Derives.inside left hnode.1 hi hl
    obtain ⟨hkj, hj, hin₂⟩ := Derives.inside right hnode.2 hk hr
    exact ⟨hik.trans hkj, hj, hin₁.append hin₂ hik hkj⟩
  | union all => exact DerivesOne.inside all hnode hi h
  | repeated minRep maxRep lazy subexpr =>
    obtain ⟨n, -, hn⟩ := h
    exact hn.inside (fun _ hi _ _ => Derives.inside subexpr hnode hi) hi
  | lookahead subexpr =>
    obtain ⟨⟨k, h⟩, rfl⟩ := h
    rw [Derives.captureless subexpr hnode h]
    exact ⟨le_rfl, hi, inside_nil⟩
  | negativeLookahead subexpr =>
    obtain ⟨rfl, rfl⟩ := h
    exact ⟨le_rfl, hi, inside_nil⟩

theorem DerivesOne.inside (nodes : List ReNode) (hnodes : LooksCapturelessAll nodes)
    {id i j : ℕ} {c : Caps} (hi : i ∈ Set.Icc 0 s.length)
    (h : DerivesOne regex s nodes id i j c) :
    i ≤ j ∧ j ∈ Set.Icc 0 s.length ∧ Inside i j c := by
  cases nodes with
  | nil => exact h.elim
  | cons node nodes =>
    obtain h | h := h
    · exact Derives.inside node hnodes.1 hi h
    · exact DerivesOne.inside nodes hnodes.2 hi h

end

theorem Derives.times_le {node : ReNode} (hnode : LooksCaptureless node) {id n : ℕ}
    (hi : i ∈ Set.Icc 0 s.length) (h : TimesWith (Derives regex s node id) n i j c) : i ≤ j :=
  (h.inside (fun _ hi _ _ => Derives.inside node hnode hi) hi).1

end Inside

/-! ## The captures are right -/

/-- **The captures of a match**: a group that takes part has the text of its last iteration, the
others have what they had in a regex compiled just now. -/
def CapturesRight (regex : Regex) (s : List UInt8) (offset k : ℕ) (m : Memory) : Prop :=
  ∃ c, Derives regex s regex.root 0 offset k c ∧ ∀ g,
    (c g = [] → m.range g = fresh.range g) ∧
    ∀ r ∈ (c g).getLast?, m.range g = r ∧ ∃ y, r.2 = some y ∧ offset ≤ r.1 ∧ r.1 ≤ y ∧ y ≤ k

end Captures

end DaScript.Regex
