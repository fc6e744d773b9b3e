import DaScript.Misc.Safebox

/-!
# Misc/SafeboxRuns — the objects of a box and their order mirror each other

`Mirrors` is kept by whatever a callback does, nested traversals included, and `tryResolve` turns it
into an ordered map again.  Only two calls break it: `replace`, which does not change the value in
`objectsInOrder`, and a `const` traversal, which leaves in `postponed` what its closure inserted.
-/

namespace DaScript.Safebox

variable {V : Type} {b : Safebox V} {events : List (BoxEvent V)}

/-- What waits for a key. -/
def waiting (postponed : List (Key × V)) (key : Key) : Option V :=
  (postponed.find? fun kv => kv.1 == key).map Prod.snd

/-- **A box at any time**: every key has what happened to it, in `objects` or in `postponed`. -/
structure Mirrors [Inhabited V] (b : Safebox V) (events : List (BoxEvent V)) : Prop where
  inOrder : b.objectsInOrder.Perm (b.objects.entries.map Sigma.snd)
  nodup : (b.postponed.map Prod.fst).Nodup
  absent : ∀ p ∈ b.postponed, p.1 ∉ b.objects
  right : Right events
  view : ∀ key, view events key = (b.objects.lookup key).or (waiting b.postponed key)

/-! ## Two containers -/

theorem find_eq [Inhabited V] (key : Key) :
    b.find key = ((b.objects.lookup key).or (waiting b.postponed key)).getD default := by
  unfold find
  cases b.objects.lookup key <;> rfl

theorem waiting_eq_none {postponed : List (Key × V)} {key : Key} :
    waiting postponed key = none ↔ ∀ p ∈ postponed, p.1 ≠ key := by
  simp [waiting]

theorem waiting_append (postponed : List (Key × V)) (key : Key) (value : V) (k : Key) :
    waiting (postponed ++ [(key, value)]) k =
      (waiting postponed k).or (if k = key then some value else none) := by
  unfold waiting
  rw [List.find?_append]
  cases postponed.find? fun kv => kv.1 == k with
  | some p => rfl
  | none =>
    by_cases hk : k = key
    · simp [hk]
    · simp [hk, Ne.symm hk]

theorem perm_erase {objects : AList fun _ : Key => V} {key : Key} {value : V}
    (hlookup : objects.lookup key = some value) :
    (objects.entries.map Sigma.snd).Perm
      (value :: (objects.erase key).entries.map Sigma.snd) := by
  have hmem : key ∈ objects.entries.keys := AList.lookup_isSome.mp (by rw [hlookup]; rfl)
  obtain ⟨v, l₁, l₂, -, hentries, hkerase⟩ := List.exists_of_kerase hmem
  have hv : ⟨key, v⟩ ∈ objects.entries := by
    rw [hentries]
    exact List.mem_append_right _ (List.mem_cons_self ..)
  obtain rfl : value = v :=
    Option.some.inj (hlookup.symm.trans (AList.mem_lookup_iff.mpr hv))
  rw [show (objects.erase key).entries = l₁ ++ l₂ from hkerase, hentries]
  simp only [List.map_append, List.map_cons]
  exact List.perm_middle

theorem resolve_spec {postponed : List (Key × V)} :
    ∀ {objects : AList fun _ : Key => V}, (postponed.map Prod.fst).Nodup →
      (∀ p ∈ postponed, p.1 ∉ objects) →
      ((postponed.foldl (fun objects p => objects.insert p.1 p.2) objects).entries.map
          Sigma.snd).Perm (postponed.map Prod.snd ++ objects.entries.map Sigma.snd) ∧
        ∀ key, (postponed.foldl (fun objects p => objects.insert p.1 p.2) objects).lookup key =
          (objects.lookup key).or (waiting postponed key) := by
  induction postponed with
  | nil =>
    intro objects _ _
    refine ⟨List.Perm.refl _, fun key => ?_⟩
    cases h : objects.lookup key <;> simp [waiting, h]
  | cons p rest ih =>
    intro objects hnodup habsent
    rw [List.map_cons, List.nodup_cons] at hnodup
    have hp : p.1 ∉ objects := habsent p (List.mem_cons_self ..)
    have hrest : ∀ q ∈ rest, q.1 ∉ objects.insert p.1 p.2 := fun q hq hmem => by
      rcases (AList.mem_insert objects).mp hmem with heq | hmem
      · exact hnodup.1 (heq ▸ List.mem_map_of_mem hq)
      · exact habsent q (List.mem_cons_of_mem _ hq) hmem
    obtain ⟨hperm, hlookup⟩ := ih hnodup.2 hrest
    refine ⟨?_, fun key => ?_⟩
    · refine hperm.trans ?_
      rw [AList.entries_insert_of_notMem hp, List.map_cons, List.map_cons, List.cons_append]
      exact List.perm_middle
    · rw [List.foldl_cons, hlookup key]
      by_cases hkey : key = p.1
      · subst hkey
        rw [AList.lookup_insert, AList.lookup_eq_none.mpr hp]
        simp [waiting]
      · rw [AList.lookup_insert_ne hkey]
        simp [waiting, Ne.symm hkey]

theorem absent_of_nil {postponed : List (Key × V)} (hpost : postponed = [])
    (objects : AList fun _ : Key => V) : ∀ p ∈ postponed, p.1 ∉ objects := by
  rw [hpost]
  exact fun _ hp => absurd hp List.not_mem_nil

/-! ## One operation -/

theorem visit_induct {S : Type} (breaks : Bool) {closure : V → S → S × Bool} (P : S → Prop)
    (hclosure : ∀ obj s, P s → P (closure obj s).1) :
    ∀ (objs : List V) (s : S), P s → P (visit breaks closure objs s)
  | [], _, hs => hs
  | obj :: objs, s, hs => by
    rw [visit]
    split
    · exact hclosure obj s hs
    · exact visit_induct breaks P hclosure objs _ (hclosure obj s hs)

theorem locked_insert (key : Key) (value : V) : (b.insert key value).2.locked = b.locked := by
  unfold Safebox.insert
  split_ifs <;> rfl

theorem postponed_insert (hunlocked : b.locked = false) (key : Key) (value : V) :
    (b.insert key value).2.postponed = b.postponed := by
  unfold Safebox.insert
  rw [hunlocked, if_neg Bool.false_ne_true]
  split_ifs <;> rfl

variable [Inhabited V]

theorem Mirrors.empty : Mirrors (empty : Safebox V) [] where
  inOrder := List.Perm.refl _
  nodup := List.nodup_nil
  absent _ hp := absurd hp List.not_mem_nil
  right := trivial
  view _ := rfl

theorem Mirrors.find_eq (h : Mirrors b events) (key : Key) :
    b.find key = (Safebox.view events key).getD default := by
  rw [Safebox.find_eq, h.view]

theorem Mirrors.find (h : Mirrors b events) (key : Key) :
    Mirrors b (.find key (b.find key) :: events) where
  inOrder := h.inOrder
  nodup := h.nodup
  absent := h.absent
  right := ⟨h.find_eq key, h.right⟩
  view := h.view

theorem Mirrors.insert_present (h : Mirrors b events) {key : Key} {value : V}
    (hview : (Safebox.view events key).isSome) : Mirrors b (.insert key value false :: events) where
  inOrder := h.inOrder
  nodup := h.nodup
  absent := h.absent
  right := ⟨by rw [← Option.not_isSome, hview]; rfl, h.right⟩
  view := h.view

theorem Mirrors.view_isSome (h : Mirrors b events) {key : Key} (hmem : key ∈ b.objects) :
    (Safebox.view events key).isSome := by
  obtain ⟨v, hv⟩ := Option.isSome_iff_exists.mp (AList.lookup_isSome.mpr hmem)
  rw [h.view, hv]
  rfl

theorem Mirrors.insert (h : Mirrors b events) (hunlocked : b.locked = false → b.postponed = [])
    (key : Key) (value : V) :
    Mirrors (b.insert key value).2 (.insert key value (b.insert key value).1 :: events) := by
  have hview := h.view key
  unfold Safebox.insert
  by_cases hmem : key ∈ b.objects
  · simp only [if_pos hmem, ite_self]
    exact h.insert_present (h.view_isSome hmem)
  · rw [AList.lookup_eq_none.mpr hmem, Option.none_or] at hview
    simp only [if_neg hmem]
    split
    · split
      next hany =>
        refine h.insert_present ?_
        rw [hview, Option.isSome_iff_ne_none]
        intro hnone
        obtain ⟨p, hp, heq⟩ := List.any_eq_true.mp hany
        exact waiting_eq_none.mp hnone p hp (by simpa using heq)
      next hany =>
        have hnone : ∀ p ∈ b.postponed, p.1 ≠ key := fun p hp heq =>
          hany (List.any_eq_true.mpr ⟨p, hp, by simpa using heq⟩)
        rw [waiting_eq_none.mpr hnone] at hview
        refine ⟨h.inOrder, ?_, ?_, ⟨by rw [hview]; rfl, h.right⟩, fun k => ?_⟩
        · rw [List.map_append, List.nodup_append]
          refine ⟨h.nodup, List.nodup_singleton _, fun k hk k' hk' => ?_⟩
          obtain ⟨p, hp, rfl⟩ := List.mem_map.mp hk
          obtain rfl := List.mem_singleton.mp hk'
          exact hnone p hp
        · intro p hp
          rcases List.mem_append.mp hp with hp | hp
          · exact h.absent p hp
          · obtain rfl := List.mem_singleton.mp hp
            exact hmem
        · rw [waiting_append, ← Option.or_assoc, ← h.view k]
          change (if k = key then some value else Safebox.view events k) = _
          by_cases hk : k = key
          · rw [hk, hview]
            simp
          · simp [hk]
    next hlocked =>
      have hpost : b.postponed = [] := hunlocked (by simpa using hlocked)
      rw [hpost] at hview
      refine ⟨?_, h.nodup, absent_of_nil hpost _, ⟨by rw [hview]; rfl, h.right⟩, fun k => ?_⟩
      · rw [AList.entries_insert_of_notMem hmem, List.map_cons]
        exact (List.perm_append_singleton ..).trans (h.inOrder.cons value)
      · change (if k = key then some value else Safebox.view events k) = _
        split_ifs with hk
        · subst hk
          rw [AList.lookup_insert]
          rfl
        · rw [AList.lookup_insert_ne hk, ← h.view k]

theorem Mirrors.tryResolve (h : Mirrors b events) : Mirrors b.tryResolve events := by
  unfold Safebox.tryResolve
  split
  · exact h
  · obtain ⟨hperm, hlookup⟩ := resolve_spec h.nodup h.absent
    refine ⟨?_, List.nodup_nil, fun _ hp => absurd hp List.not_mem_nil, h.right, fun key => ?_⟩
    · exact (h.inOrder.append_left _).trans hperm.symm
    · rw [h.view key, hlookup key]
      exact (Option.or_none).symm

theorem Mirrors.lock (h : Mirrors b events) (locked : Bool) :
    Mirrors { b with locked := locked } events :=
  ⟨h.inOrder, h.nodup, h.absent, h.right, h.view⟩

/-! ## Callbacks -/

/-- A box in a traversal. -/
def Traversed (s : Logged V) : Prop := Mirrors s.1 s.2 ∧ s.1.locked = true

theorem run_traversed (c : Callback V) : ∀ {s : Logged V}, Traversed s → Traversed (run c s).1 := by
  induction c with
  | ret stop => exact fun h => h
  | find key next ih => exact fun h => ih _ ⟨h.1.find key, h.2⟩
  | insert key value next ih =>
    intro s h
    refine ih _ ⟨h.1.insert (fun hu => ?_) key value, (locked_insert key value).trans h.2⟩
    rw [h.2] at hu
    cases hu
  | traverse how closure next ihc ih =>
    intro s h
    refine ih ?_
    have hvisited := visit_induct how.breaks Traversed
      (fun obj s hs => ihc obj hs) s.1.objectsInOrder ({ s.1 with locked := true }, s.2)
      ⟨h.1.lock true, rfl⟩
    unfold traverse unlock
    rw [h.2]
    split
    · exact ⟨hvisited.1.lock true, rfl⟩
    · exact ⟨hvisited.1.lock true, rfl⟩

theorem traverse_resolves (h : Mirrors b events) (hunlocked : b.locked = false) {how : Traversal}
    (hresolves : how.resolves = true) (closure : V → Callback V) :
    let s := traverse how (fun obj => run (closure obj)) (b, events)
    Mirrors s.1 s.2 ∧ s.1.locked = false ∧ s.1.postponed = [] := by
  have hvisited := visit_induct how.breaks Traversed
    (fun obj s hs => run_traversed (closure obj) hs) b.objectsInOrder
    ({ b with locked := true }, events) ⟨h.lock true, rfl⟩
  unfold traverse unlock
  dsimp only
  rw [if_pos hresolves, hunlocked]
  exact ⟨(hvisited.1.lock false).tryResolve, rfl, rfl⟩

/-! ## A traversal that inserts nothing -/

theorem quiet_false (c : Callback V) : (quiet b c false).1 = false := by
  induction c with
  | ret stop => rfl
  | find key next ih => exact ih _
  | insert key value next ih => exact ih false
  | traverse how closure next ihc ih =>
    have hvisited : visit how.breaks (fun obj => quiet b (closure obj)) b.objectsInOrder false =
        false := visit_induct _ (· = false) (fun obj _ hs => hs ▸ ihc obj) _ _ rfl
    rw [quiet, hvisited]
    exact ih

theorem visit_quiet {breaks : Bool} {closure : V → Callback V}
    (hclosure : ∀ obj events, (quiet b (closure obj) true).1 = true → Mirrors b events →
      ∃ events', Mirrors b events' ∧ run (closure obj) ({ b with locked := true }, events) =
        (({ b with locked := true }, events'), (quiet b (closure obj) true).2)) :
    ∀ (objs : List V) (events : List (BoxEvent V)),
      visit breaks (fun obj => quiet b (closure obj)) objs true = true → Mirrors b events →
      ∃ events', Mirrors b events' ∧
        visit breaks (fun obj => run (closure obj)) objs ({ b with locked := true }, events) =
          ({ b with locked := true }, events')
  | [], events, _, h => ⟨events, h, rfl⟩
  | obj :: objs, events, hq, h => by
    have hpresent : (quiet b (closure obj) true).1 = true := by
      rw [visit] at hq
      split at hq
      · exact hq
      · rw [← Bool.not_eq_false]
        intro hfalse
        rw [hfalse, visit_induct _ (· = false)
          (fun obj _ hs => by rw [hs]; exact quiet_false (closure obj)) objs false rfl] at hq
        cases hq
    obtain ⟨events', h', hrun⟩ := hclosure obj events hpresent h
    rw [visit, hrun]
    rw [visit, hpresent] at hq
    dsimp only at hq ⊢
    split
    · exact ⟨events', h', rfl⟩
    next hbreak =>
      rw [if_neg hbreak] at hq
      exact visit_quiet hclosure objs events' hq h'

theorem run_quiet (c : Callback V) :
    ∀ events : List (BoxEvent V), (quiet b c true).1 = true → Mirrors b events →
      ∃ events', Mirrors b events' ∧ run c ({ b with locked := true }, events) =
        (({ b with locked := true }, events'), (quiet b c true).2) := by
  induction c with
  | ret stop => exact fun events _ h => ⟨events, h, rfl⟩
  | find key next ih => exact fun _ hq h => ih _ _ hq (h.find key)
  | insert key value next ih =>
    intro events hq h
    by_cases hmem : key ∈ b.objects
    · have hinsert : ({ b with locked := true } : Safebox V).insert key value =
          (false, { b with locked := true }) := by
        unfold Safebox.insert
        rw [if_pos rfl, if_pos hmem]
      rw [quiet, decide_eq_true hmem] at hq ⊢
      rw [run, hinsert]
      exact ih false _ hq (h.insert_present (h.view_isSome hmem))
    · rw [quiet, decide_eq_false hmem, Bool.and_false, quiet_false] at hq
      cases hq
  | traverse how closure next ihc ih =>
    intro events hq h
    have hvisit : visit how.breaks (fun obj => quiet b (closure obj)) b.objectsInOrder true =
        true := by
      rw [← Bool.not_eq_false]
      intro hfalse
      rw [quiet, hfalse, quiet_false] at hq
      cases hq
    rw [quiet, hvisit] at hq ⊢
    obtain ⟨events', h', hvisited⟩ := visit_quiet (fun obj => ihc obj) b.objectsInOrder events
      hvisit h
    have htraverse : traverse how (fun obj => run (closure obj))
        ({ b with locked := true }, events) = ({ b with locked := true }, events') := by
      unfold traverse unlock
      rw [hvisited]
      split_ifs <;> rfl
    rw [run, htraverse]
    exact ih events' hq h'

/-! ## One call -/

theorem Mirrors.refreshKey (h : Mirrors b events) (hpost : b.postponed = []) {oldKey newKey : Key}
    (hold : oldKey ∈ b.objects) (hnew : newKey ∉ b.objects) :
    Mirrors (b.refreshKey oldKey newKey).2
        (.refreshKey oldKey newKey (b.refreshKey oldKey newKey).1 :: events) ∧
      (b.refreshKey oldKey newKey).2.postponed = [] ∧
      (b.refreshKey oldKey newKey).2.locked = b.locked := by
  obtain ⟨value, hvalue⟩ := Option.isSome_iff_exists.mp (AList.lookup_isSome.mpr hold)
  have hview := h.view oldKey
  rw [hvalue] at hview
  have hnew' : newKey ∉ b.objects.erase oldKey := fun hmem => hnew (AList.mem_erase.mp hmem).2
  unfold Safebox.refreshKey
  rw [hvalue]
  refine ⟨⟨?_, h.nodup, absent_of_nil hpost _, ⟨by rw [hview]; rfl, h.right⟩, fun k => ?_⟩,
    hpost, rfl⟩
  · rw [AList.entries_insert_of_notMem hnew', List.map_cons]
    exact h.inOrder.trans (perm_erase hvalue)
  · change (if k = newKey then Safebox.view events oldKey
      else if k = oldKey then none else Safebox.view events k) = _
    split_ifs with hk hk'
    · rw [hk, AList.lookup_insert, hview]
      rfl
    · rw [AList.lookup_insert_ne hk, hk', AList.lookup_erase, hpost]
      rfl
    · rw [AList.lookup_insert_ne hk, AList.lookup_erase_ne hk']
      exact h.view k

theorem Mirrors.replace (h : Mirrors b events) {key : Key} {value : V}
    (hlookup : b.objects.lookup key = some value) :
    b.replace key value = b ∧ Mirrors b (.replace key value :: events) := by
  have hobjects : b.objects.replace key value = b.objects :=
    AList.ext (List.kreplace_self b.objects.nodupKeys (AList.mem_lookup_iff.mp hlookup))
  refine ⟨by unfold Safebox.replace; rw [hobjects],
    ⟨h.inOrder, h.nodup, h.absent, h.right, fun k => ?_⟩⟩
  change (if k = key then some value else Safebox.view events k) = _
  split_ifs with hk
  · rw [hk, hlookup]
    rfl
  · exact h.view k

theorem traverse_quiet (h : Mirrors b events) (closure : V → Callback V)
    (hquiet : visit false (fun obj => quiet b (closure obj)) b.objectsInOrder true = true) :
    ∃ events', Mirrors b events' ∧
      traverse .foreachConst (fun obj => run (closure obj)) (b, events) = (b, events') := by
  obtain ⟨events', h', hvisited⟩ := visit_quiet
    (fun obj events hq h => run_quiet (closure obj) events hq h) b.objectsInOrder events hquiet h
  refine ⟨events', h', ?_⟩
  unfold traverse unlock Traversal.breaks
  rw [hvisited]
  rfl

variable [DecidableEq V]

theorem Mirrors.ordered (h : Mirrors b events) (hpost : b.postponed = []) : Ordered b events := by
  have hlookup : ∀ key, b.objects.lookup key = Safebox.view events key := fun key => by
    rw [h.view key, hpost]
    exact Option.or_none.symm
  refine ⟨h.inOrder, hpost, h.right, hlookup, h.find_eq, fun key => ?_⟩
  unfold Safebox.remove
  cases hkey : b.objects.lookup key with
  | none => rfl
  | some value =>
    have hmem : value ∈ b.objectsInOrder :=
      h.inOrder.mem_iff.mpr ((perm_erase hkey).mem_iff.mpr (List.mem_cons_self ..))
    dsimp only
    rw [if_pos hmem]
    rfl

theorem Mirrors.remove (h : Mirrors b events) (hpost : b.postponed = []) {key : Key}
    {r : Bool × Safebox V} (hstep : b.remove key = some r) :
    Mirrors r.2 (.remove key r.1 :: events) ∧ r.2.postponed = [] ∧ r.2.locked = b.locked := by
  have hview := h.view key
  rw [hpost] at hview
  unfold Safebox.remove at hstep
  cases hkey : b.objects.lookup key with
  | none =>
    rw [hkey] at hstep hview
    obtain rfl := Option.some.inj hstep
    refine ⟨⟨h.inOrder, h.nodup, h.absent, ⟨by rw [hview]; rfl, h.right⟩, fun k => ?_⟩, hpost, rfl⟩
    change (if k = key then none else Safebox.view events k) = _
    split_ifs with hk
    · rw [hk, hkey, hpost]
      rfl
    · exact h.view k
  | some value =>
    rw [hkey] at hstep hview
    dsimp only at hstep
    split_ifs at hstep
    obtain rfl := Option.some.inj hstep
    refine ⟨⟨?_, h.nodup, absent_of_nil hpost _, ⟨by rw [hview]; rfl, h.right⟩, fun k => ?_⟩,
      hpost, rfl⟩
    · have hperm := (h.inOrder.trans (perm_erase hkey)).erase value
      rwa [List.erase_cons_head] at hperm
    · change (if k = key then none else Safebox.view events k) = _
      split_ifs with hk
      · rw [hk, AList.lookup_erase, hpost]
        rfl
      · rw [AList.lookup_erase_ne hk]
        exact h.view k

theorem step_mirrors {s s' : Logged V} {call : Call V} (h : Mirrors s.1 s.2)
    (hunlocked : s.1.locked = false) (hpost : s.1.postponed = []) (hasks : s.1.Asks call)
    (hkeeps : s.1.Keeps call) (hstep : step s call = some s') :
    Mirrors s'.1 s'.2 ∧ s'.1.locked = false ∧ s'.1.postponed = [] := by
  obtain ⟨b, events⟩ := s
  cases call with
  | insert key value =>
    obtain rfl := Option.some.inj hstep
    exact ⟨h.insert (fun _ => hpost) key value, (locked_insert key value).trans hunlocked,
      (postponed_insert hunlocked key value).trans hpost⟩
  | find key =>
    obtain rfl := Option.some.inj hstep
    exact ⟨h.find key, hunlocked, hpost⟩
  | replace key value =>
    obtain rfl := Option.some.inj hstep
    obtain ⟨heq, h'⟩ := h.replace hkeeps
    dsimp only
    rw [heq]
    exact ⟨h', hunlocked, hpost⟩
  | remove key =>
    obtain ⟨r, hr, rfl⟩ := Option.map_eq_some_iff.mp hstep
    obtain ⟨h', hpost', hlocked⟩ := h.remove hpost hr
    exact ⟨h', hlocked.trans hunlocked, hpost'⟩
  | refreshKey oldKey newKey =>
    obtain rfl := Option.some.inj hstep
    obtain ⟨h', hpost', hlocked⟩ := h.refreshKey hpost hasks.1 hasks.2
    exact ⟨h', hlocked.trans hunlocked, hpost'⟩
  | clear =>
    obtain rfl := Option.some.inj hstep
    exact ⟨⟨List.Perm.refl _, List.nodup_nil, fun _ hp => absurd hp List.not_mem_nil, h.right,
      fun _ => rfl⟩, hunlocked, rfl⟩
  | traverse how closure =>
    obtain rfl := Option.some.inj hstep
    cases how with
    | foreach => exact traverse_resolves h hunlocked rfl closure
    | findFirst => exact traverse_resolves h hunlocked rfl closure
    | foreachConst =>
      obtain ⟨events', h', htraverse⟩ := traverse_quiet h closure hkeeps
      rw [htraverse]
      exact ⟨h', hunlocked, hpost⟩

theorem Runs.mirrors {s : Logged V} (hrun : Runs Keeps s) :
    Mirrors s.1 s.2 ∧ s.1.locked = false ∧ s.1.postponed = [] := by
  induction hrun with
  | empty => exact ⟨.empty, rfl, rfl⟩
  | step hrun hasks hkeeps hstep ih => exact step_mirrors ih.1 ih.2.1 ih.2.2 hasks hkeeps hstep

end DaScript.Safebox
