import JasonDb.Codec.Lookup

namespace JasonDb.Codec

open Lib

-- A loop returns when some number of rounds is enough for it.
def Halts {α : Type} (f : Nat → Except Error α) : Prop := ∃ fuel, Returns (f fuel)

section Expand

variable (read : PageNum → Except Error BTreeNode)

-- What a walk does at what reading a node gave. A panic is a failure.
def onNode {ρ : Type} (refused : Error → Expand (Except Error BTreeNode) ρ Error)
    (f : BTreeNode → Expand (Except Error BTreeNode) ρ Error) :
    Except Error BTreeNode → Expand (Except Error BTreeNode) ρ Error
  | .ok node => f node
  | .error (.panic message) => .fault (.panic message)
  | .error e => refused e

def descentStep (pick : BTreeNode → Except Error PageNum) :
    Except Error BTreeNode → Expand (Except Error BTreeNode) (Except Error BTreeNode) Error :=
  onNode (fun e => .stop (.error e)) fun node => match node.nodeType with
    | .leafNode => .stop (.ok node)
    | .internalNode => match pick node with
      | .error (.panic message) => .fault (.panic message)
      | .error e => .stop (.error e)
      | .ok childPage => .children [read childPage]

def memberStep (target : PageNum) : Except Error BTreeNode → Expand (Except Error BTreeNode) Unit Error :=
  onNode (fun _ => .children []) fun node =>
    if node.pageNum = target then .stop ()
    else match node.nodeType with
      | .leafNode => .children []
      | .internalNode => .children (node.children.map read)

def laterStep (key : String) : Except Error BTreeNode → Expand (Except Error BTreeNode) PageNum Error :=
  onNode (fun _ => .children []) fun node => match node.nodeType with
    | .leafNode => match node.entries with
      | first :: _ => if key < first.key then .stop node.pageNum else .children []
      | [] => .children []
    | .internalNode => match node.keys.findIdx? (key < ·) with
      | some i => .children ((node.children.drop i).map read)
      | none => match node.children.getLast? with
        | some last => .children [read last]
        | none => .fault (.panic "called `Option::unwrap()` on a `None` value")

-- The leaf that is found is then read by its number.
def laterLeafStep (key : String) :
    Except Error BTreeNode → Expand (Except Error BTreeNode) (Option BTreeNode) Error :=
  fun result => (laterStep read key result).andThen (tryRead read)

variable {read}

theorem isPageInTree_eq (target : PageNum) (fuel : Nat) :
    isPageInTree read target fuel = depthFirst .diverged (memberStep read target) fuel := by
  induction fuel with
  | zero => rfl
  | succ fuel ih =>
    funext result
    rw [isPageInTree, depthFirst, memberStep, ih]
    cases result with
    | error e =>
      cases e
      all_goals rfl
    | ok node =>
      dsimp only [ifRead, onNode]
      split
      · rfl
      cases node.nodeType with
      | leafNode => rfl
      | internalNode => rfl

theorem firstFound_one {ν ρ ε : Type} (f : ν → Except ε (Option ρ)) (v : ν) : firstFound f [v] = f v := by
  rw [firstFound]
  cases f v with
  | error e => rfl
  | ok r =>
    cases r with
    | none => rfl
    | some result => rfl

theorem findNextLeafByKey_eq (key : String) (fuel : Nat) :
    findNextLeafByKey read key fuel = depthFirst .diverged (laterStep read key) fuel := by
  induction fuel with
  | zero => rfl
  | succ fuel ih =>
    funext result
    rw [findNextLeafByKey, depthFirst, laterStep, ih]
    cases result with
    | error e =>
      cases e
      all_goals rfl
    | ok node =>
      dsimp only [ifRead, onNode]
      cases node.nodeType with
      | leafNode =>
        dsimp only
        cases node.entries with
        | nil => rfl
        | cons first rest =>
          dsimp only
          split
          · rfl
          · rfl
      | internalNode =>
        dsimp only
        cases node.keys.findIdx? (key < ·) with
        | some i => rfl
        | none =>
          dsimp only
          cases node.children.getLast? with
          | none => rfl
          | some last => exact (firstFound_one _ (read last)).symm

-- What a descent returns for the outcome of its walk.
def outcome {α : Type} : Except Error (Option (Except Error α)) → Except Error α
  | .ok (some r) => r
  | .ok none => .error .diverged
  | .error e => .error e

theorem descend_eq (pick : BTreeNode → Except Error PageNum) (fuel : Nat) (result : Except Error BTreeNode) :
    descend read pick fuel result = outcome (depthFirst .diverged (descentStep read pick) fuel result) := by
  induction fuel generalizing result with
  | zero => rfl
  | succ fuel ih =>
    rw [descend, depthFirst, descentStep]
    cases result with
    | error e =>
      cases e
      all_goals rfl
    | ok node =>
      dsimp only [bind, Except.bind, onNode]
      cases node.nodeType with
      | leafNode => rfl
      | internalNode =>
        dsimp only
        cases pick node with
        | error e =>
          cases e
          all_goals rfl
        | ok childPage =>
          dsimp only
          rw [firstFound_one]
          exact ih (read childPage)

-- The leaf after a key, with the read of it.
theorem nextLeafByKey_eq {current : BTreeNode} {last : LeafEntry}
    (hlast : current.entries.getLast? = some last)
    (fuel : Nat) (root : BTreeNode) : nextLeafByKey read fuel root current =
      (depthFirst .diverged (laterLeafStep read last.key) fuel (.ok root)).map Option.join := by
  have hstep : depthFirst .diverged (laterLeafStep read last.key) fuel (.ok root) =
      onResult (tryRead read) (findNextLeafByKey read last.key fuel (.ok root)) := by
    rw [findNextLeafByKey_eq, ← depthFirst_andThen]
    rfl
  unfold nextLeafByKey
  rw [hlast, hstep]
  dsimp only [bind, Except.bind]
  cases findNextLeafByKey read last.key fuel (.ok root) with
  | error e => rfl
  | ok found =>
    cases found with
    | none => rfl
    | some pageNum =>
      dsimp only [onResult]
      cases tryRead read pageNum with
      | error e => rfl
      | ok leaf =>
        cases leaf with
        | none => rfl
        | some node => rfl

end Expand

section Finite

variable {read : PageNum → Except Error BTreeNode} {ρ : Type}

-- The walk goes on to what reading the children of a node gives.
def Follows (read : PageNum → Except Error BTreeNode)
    (step : Except Error BTreeNode → Expand (Except Error BTreeNode) ρ Error) : Prop :=
  ∀ v nodes, step v = .children nodes → ∀ w ∈ nodes, ∃ node, v = .ok node ∧ ∃ p ∈ node.children, w = read p

variable {step : Except Error BTreeNode → Expand (Except Error BTreeNode) ρ Error} {rootPage : PageNum}

-- Pages whose numbers were decoded from eight bytes are finitely many.
theorem Follows.reached (h : Follows read step) (hread : ∀ p node, read p = .ok node → Decoded node)
    {w : Except Error BTreeNode} (hw : Relation.ReflTransGen (Enters step) (read rootPage) w) :
    ∃ p, w = read p ∧ (p = rootPage ∨ p < 2 ^ 64) := by
  induction hw with
  | refl => exact ⟨rootPage, rfl, Or.inl rfl⟩
  | tail _ hlast ih =>
    obtain ⟨q, hv, -⟩ := ih
    obtain ⟨before, after, hexpand, -⟩ := hlast
    obtain ⟨node, hnode, p, hp, hw⟩ := h _ _ hexpand _ (List.mem_append_right _ List.mem_cons_self)
    exact ⟨p, hw, Or.inr ((hread q node (hv.symm.trans hnode)).bounded p hp)⟩

theorem Follows.finite (h : Follows read step) (hread : ∀ p node, read p = .ok node → Decoded node) :
    {w | Relation.ReflTransGen (Enters step) (read rootPage) w}.Finite := by
  have hnodes : (read '' {p | p < 2 ^ 64}).Finite := (Set.finite_lt_nat _).image _
  refine (hnodes.insert (read rootPage)).subset ?_
  intro w hw
  obtain ⟨p, rfl, hp⟩ := h.reached hread hw
  rcases hp with rfl | hp
  · exact Set.mem_insert _ _
  · exact Set.mem_insert_of_mem _ ⟨p, hp, rfl⟩

theorem follows_onNode {refused : Error → Expand (Except Error BTreeNode) ρ Error}
    {f : BTreeNode → Expand (Except Error BTreeNode) ρ Error}
    (hrefused : ∀ e nodes, refused e = .children nodes → nodes = [])
    (hf : ∀ node nodes, f node = .children nodes → ∀ w ∈ nodes, ∃ p ∈ node.children, w = read p) :
    Follows read (onNode refused f) := by
  intro v nodes hexpand w hw
  cases v with
  | ok node => exact ⟨node, rfl, hf node nodes hexpand w hw⟩
  | error e =>
    exfalso
    cases e with
    | panic message => cases hexpand
    | _ =>
      rw [hrefused _ nodes hexpand] at hw
      exact List.not_mem_nil hw

theorem mem_map_read {pages : List PageNum} {w : Except Error BTreeNode} (h : w ∈ pages.map read) :
    ∃ p ∈ pages, w = read p := by
  obtain ⟨p, hp, hw⟩ := List.mem_map.mp h
  exact ⟨p, hp, hw.symm⟩

theorem follows_memberStep (target : PageNum) : Follows read (memberStep read target) := by
  refine follows_onNode (fun e nodes h => (Expand.children.inj h).symm) ?_
  intro node nodes hexpand w hw
  split at hexpand
  · cases hexpand
  split at hexpand
  · cases hexpand
    exact absurd hw List.not_mem_nil
  · obtain rfl := Expand.children.inj hexpand
    exact mem_map_read hw

theorem follows_laterStep (key : String) : Follows read (laterStep read key) := by
  refine follows_onNode (fun e nodes h => (Expand.children.inj h).symm) ?_
  intro node nodes hexpand w hw
  split at hexpand
  · split at hexpand
    · split at hexpand
      · cases hexpand
      · cases hexpand
        exact absurd hw List.not_mem_nil
    · cases hexpand
      exact absurd hw List.not_mem_nil
  · split at hexpand
    · obtain rfl := Expand.children.inj hexpand
      obtain ⟨p, hp, hread⟩ := mem_map_read hw
      exact ⟨p, List.mem_of_mem_drop hp, hread⟩
    · split at hexpand
      next last hlast =>
        obtain rfl := Expand.children.inj hexpand
        exact ⟨last, List.mem_of_getLast? hlast, List.mem_singleton.mp hw⟩
      next => cases hexpand

theorem follows_laterLeafStep (key : String) : Follows read (laterLeafStep read key) := by
  intro v nodes hexpand
  refine follows_laterStep key v nodes ?_
  unfold laterLeafStep at hexpand
  cases hv : laterStep read key v with
  | stop pageNum =>
    rw [hv] at hexpand
    dsimp only [Expand.andThen] at hexpand
    split at hexpand
    · cases hexpand
    · cases hexpand
  | fault e => rw [hv] at hexpand; cases hexpand
  | children nodes' =>
    rw [hv] at hexpand
    obtain rfl := Expand.children.inj hexpand
    rfl

theorem follows_descentStep {pick : BTreeNode → Except Error PageNum}
    (hpick : ∀ node p, pick node = .ok p → p ∈ node.children) : Follows read (descentStep read pick) := by
  refine follows_onNode (fun e nodes h => by cases h) ?_
  intro node nodes hexpand w hw
  split at hexpand
  · cases hexpand
  · split at hexpand
    · cases hexpand
    · cases hexpand
    next p hp =>
      obtain rfl := Expand.children.inj hexpand
      exact ⟨p, hpick node p hp, List.mem_singleton.mp hw⟩

end Finite

section Lookups

variable {read : PageNum → Except Error BTreeNode} {rootPage : PageNum}

-- A child picked is a child of the node, and what a pick says instead is an error or a panic.
structure Picks (pick : BTreeNode → Except Error PageNum) : Prop where
  child : ∀ node p, pick node = .ok p → p ∈ node.children
  ends : ∀ node, pick node ≠ .error .diverged

-- How a handle reads pages: whatever the pages hold, it comes to an end, and what it returns was
-- decoded.
structure ReadsNodes (read : PageNum → Except Error BTreeNode) : Prop where
  ends : ∀ p, read p ≠ .error .diverged
  decoded : ∀ p node, read p = .ok node → Decoded node

-- Reading the page does not panic.
def Asks (read : PageNum → Except Error BTreeNode) (pageNum : PageNum) : Prop :=
  ∀ message, read pageNum ≠ .error (.panic message)

theorem ReadsNodes.returns_iff (hread : ReadsNodes read) (pageNum : PageNum) :
    Returns (read pageNum) ↔ Asks read pageNum :=
  and_iff_left (hread.ends pageNum)

theorem returns_tryRead_iff (hread : ReadsNodes read) (pageNum : PageNum) :
    Returns (tryRead read pageNum) ↔ Asks read pageNum := by
  rw [← hread.returns_iff]
  unfold tryRead
  have hends := hread.ends pageNum
  cases hresult : read pageNum with
  | ok node => exact iff_of_true (returns_ok _) (returns_ok _)
  | error e =>
    rw [hresult] at hends
    cases e with
    | panic message => exact iff_of_false (fun h => h.1 message rfl) (fun h => h.1 message rfl)
    | diverged => exact absurd rfl hends
    | _ => exact iff_of_true (returns_ok _) (returns_error (fun _ h => by cases h) (fun h => by cases h))

theorem tryRead_eq_error {pageNum : PageNum} {e : Error} (h : tryRead read pageNum = .error e) :
    ∃ message, e = .panic message := by
  unfold tryRead at h
  cases hresult : read pageNum with
  | ok node => rw [hresult] at h; cases h
  | error e' =>
    rw [hresult] at h
    cases e' with
    | panic message => exact ⟨message, (Except.error.inj h).symm⟩
    | _ => cases h

section Walks

variable {ρ : Type} {step : Except Error BTreeNode → Expand (Except Error BTreeNode) ρ Error}

-- The only failures are panics.
def Panics (step : Except Error BTreeNode → Expand (Except Error BTreeNode) ρ Error) : Prop :=
  ∀ v e, step v = .fault e → ∃ message, e = .panic message

theorem not_returns_depthFirst (hfault : Panics step) {fuel : Nat} {root : Except Error BTreeNode} {e : Error}
    {α : Type} (h : depthFirst .diverged step fuel root = .error e) :
    ¬ Returns (.error e : Except Error α) := by
  intro hreturns
  rcases depthFirst_error h with rfl | ⟨w, hw⟩
  · exact hreturns.2 rfl
  · obtain ⟨message, rfl⟩ := hfault w e hw
    exact hreturns.1 message rfl

-- A search whose only failures are panics returns exactly when it can be finished.
theorem halts_depthFirst_iff (hread : ReadsNodes read) (hfollows : Follows read step) (hfault : Panics step) :
    Halts (fun fuel => depthFirst .diverged step fuel (read rootPage)) ↔ Traversable step (read rootPage) := by
  rw [← depthFirst_ends_iff .diverged (hfollows.finite hread.decoded)]
  constructor
  · rintro ⟨fuel, hreturns⟩
    dsimp only at hreturns
    cases h : depthFirst .diverged step fuel (read rootPage) with
    | ok r => exact ⟨fuel, r, h⟩
    | error e =>
      rw [h] at hreturns
      exact absurd hreturns (not_returns_depthFirst hfault h)
  · rintro ⟨fuel, r, h⟩
    refine ⟨fuel, ?_⟩
    dsimp only
    rw [h]
    exact returns_ok r

theorem panics_onNode {refused : Error → Expand (Except Error BTreeNode) ρ Error}
    {f : BTreeNode → Expand (Except Error BTreeNode) ρ Error} (hrefused : ∀ e e', refused e ≠ .fault e')
    (hf : ∀ node e, f node = .fault e → ∃ message, e = .panic message) : Panics (onNode refused f) := by
  intro v e h
  cases v with
  | ok node => exact hf node e h
  | error e' =>
    cases e' with
    | panic message => exact ⟨message, (Expand.fault.inj h).symm⟩
    | _ => exact absurd h (hrefused _ e)

theorem panics_memberStep (target : PageNum) : Panics (memberStep read target) := by
  refine panics_onNode (fun _ _ h => by cases h) ?_
  intro node e h
  split at h
  · cases h
  · split at h
    · cases h
    · cases h

theorem panics_laterStep (key : String) : Panics (laterStep read key) := by
  refine panics_onNode (fun _ _ h => by cases h) ?_
  intro node e h
  split at h
  · split at h
    · split at h
      · cases h
      · cases h
    · cases h
  · split at h
    · cases h
    · split at h
      · cases h
      · exact ⟨_, (Expand.fault.inj h).symm⟩

theorem panics_laterLeafStep (key : String) : Panics (laterLeafStep read key) := by
  intro v e h
  unfold laterLeafStep at h
  cases hv : laterStep read key v with
  | stop pageNum =>
    rw [hv] at h
    dsimp only [Expand.andThen] at h
    cases htry : tryRead read pageNum with
    | ok leaf => rw [htry] at h; cases h
    | error e' =>
      rw [htry] at h
      obtain rfl := Expand.fault.inj h
      exact tryRead_eq_error htry
  | fault e' =>
    rw [hv] at h
    obtain rfl := Expand.fault.inj h
    exact panics_laterStep key v e' hv
  | children nodes => rw [hv] at h; cases h

theorem panics_descentStep (pick : BTreeNode → Except Error PageNum) : Panics (descentStep read pick) := by
  refine panics_onNode (fun _ _ h => by cases h) ?_
  intro node e h
  split at h
  · cases h
  · split at h
    · exact ⟨_, (Expand.fault.inj h).symm⟩
    · cases h
    · cases h

-- A walk to a leaf always has an answer.
theorem not_barren_descentStep (pick : BTreeNode → Except Error PageNum) (v : Except Error BTreeNode) :
    ¬ Barren (descentStep read pick) v := by
  intro h
  induction h with
  | @intro v nodes expands _ ih =>
    unfold descentStep at expands
    cases v with
    | error e =>
      cases e
      all_goals cases expands
    | ok node =>
      dsimp only [onNode] at expands
      split at expands
      · cases expands
      · split at expands
        · cases expands
        · cases expands
        next p _ =>
          obtain rfl := Expand.children.inj expands
          exact ih (read p) List.mem_cons_self

end Walks

theorem returns_stop (hread : ReadsNodes read) {pick : BTreeNode → Except Error PageNum} (hpick : Picks pick)
    {pageNum : PageNum} {r : Except Error BTreeNode} (h : descentStep read pick (read pageNum) = .stop r) :
    Returns r := by
  have hends := hread.ends pageNum
  unfold descentStep at h
  cases hresult : read pageNum with
  | error e =>
    rw [hresult] at h hends
    cases e with
    | panic message => cases h
    | diverged => exact absurd rfl hends
    | _ =>
      obtain rfl := Expand.stop.inj h
      exact returns_error (fun _ h => by cases h) (fun h => by cases h)
  | ok node =>
    rw [hresult] at h
    dsimp only [onNode] at h
    split at h
    · obtain rfl := Expand.stop.inj h
      exact returns_ok node
    · split at h
      · cases h
      next e hnot he =>
        obtain rfl := Expand.stop.inj h
        refine returns_error (fun message hmessage => hnot message hmessage) ?_
        rintro rfl
        exact hpick.ends node he
      · cases h

theorem halts_descend_iff (hread : ReadsNodes read) {pick : BTreeNode → Except Error PageNum}
    (hpick : Picks pick) :
    Halts (fun fuel => descend read pick fuel (read rootPage)) ↔
      Traversable (descentStep read pick) (read rootPage) := by
  have hfollows : Follows read (descentStep read pick) := follows_descentStep hpick.child
  rw [← halts_depthFirst_iff hread hfollows (panics_descentStep pick)]
  simp only [descend_eq]
  refine exists_congr fun fuel => ?_
  dsimp only
  cases h : depthFirst .diverged (descentStep read pick) fuel (read rootPage) with
  | error e =>
    exact iff_of_false (not_returns_depthFirst (panics_descentStep pick) h)
      (not_returns_depthFirst (panics_descentStep pick) h)
  | ok r =>
    refine iff_of_true ?_ (returns_ok r)
    cases r with
    | none => exact absurd (barren_of_depthFirst h) (not_barren_descentStep pick _)
    | some result =>
      obtain ⟨w, hreach, hw⟩ := depthFirst_some h
      obtain ⟨p, rfl, -⟩ := hfollows.reached hread.decoded hreach
      exact returns_stop hread hpick hw

-- A walk to a leaf and something that returns.
theorem halts_walk_iff {α : Type} (hread : ReadsNodes read) {pick : BTreeNode → Except Error PageNum}
    (hpick : Picks pick) (f : BTreeNode → Except Error α) (hf : ∀ leaf, Returns (f leaf)) :
    Halts (fun fuel => do
      let leaf ← descend read pick fuel (read rootPage)
      f leaf) ↔ Traversable (descentStep read pick) (read rootPage) := by
  rw [← halts_descend_iff hread hpick]
  refine exists_congr fun fuel => ?_
  dsimp only [bind, Except.bind]
  cases descend read pick fuel (read rootPage) with
  | ok leaf => exact iff_of_true (hf leaf) (returns_ok leaf)
  | error e => exact ⟨fun h => h.error, fun h => h.error⟩

theorem halts_searchFrom_iff (hread : ReadsNodes read) {pick : BTreeNode → Except Error PageNum}
    (hpick : Picks pick) (key : String) {missing : Error}
    (hmissing : Returns (.error missing : Except Error Unit)) :
    Halts (searchFrom read rootPage pick key missing) ↔ Traversable (descentStep read pick) (read rootPage) := by
  refine halts_walk_iff hread hpick _ ?_
  intro leaf
  split
  · exact returns_ok _
  · exact hmissing.error

theorem picks_pickFirst : Picks pickFirst := by
  refine ⟨?_, ?_⟩
  · intro node p h
    unfold pickFirst at h
    split at h
    · cases h
    next first rest hchildren =>
      cases h
      rw [hchildren]
      exact List.mem_cons_self
  · intro node h
    unfold pickFirst at h
    split at h
    · cases h
    · cases h

theorem halts_iteratorFrom_iff (hread : ReadsNodes read) :
    Halts (iteratorFrom read rootPage) ↔ Traversable (descentStep read pickFirst) (read rootPage) :=
  halts_walk_iff hread picks_pickFirst _ fun _ => returns_ok _

-- What a step of the iterator needs: it can ask for the linked leaf and for the root, the root is
-- searched for the leaf that is linked, and, when that is not in the tree or there is none, for the
-- leaf after the last key.
structure NextTraversable (read : PageNum → Except Error BTreeNode) (rootPage : PageNum)
    (current : BTreeNode) :
    Prop where
  linked : current.nextLeaf ≠ 0 → Asks read current.nextLeaf
  root : Asks read rootPage
  member : ∀ leaf, linkedLeaf read current = .ok (some leaf) →
    Traversable (memberStep read leaf.pageNum) (read rootPage)
  later : (∀ leaf, linkedLeaf read current = .ok (some leaf) → Barren (memberStep read leaf.pageNum) (read rootPage)) →
    ∀ last, current.entries.getLast? = some last → Traversable (laterLeafStep read last.key) (read rootPage)

theorem tryRead_eq_none {pageNum : PageNum} (h : tryRead read pageNum = .ok none) :
    ∃ e, read pageNum = .error e ∧ ∀ message, e ≠ .panic message := by
  unfold tryRead at h
  cases hresult : read pageNum with
  | ok node => rw [hresult] at h; cases h
  | error e =>
    refine ⟨e, rfl, ?_⟩
    rintro message rfl
    rw [hresult] at h
    cases h

theorem tryRead_eq_some {pageNum : PageNum} {node : BTreeNode} (h : tryRead read pageNum = .ok (some node)) :
    read pageNum = .ok node := by
  unfold tryRead at h
  cases hresult : read pageNum with
  | ok node' =>
    rw [hresult] at h
    rw [Option.some.inj (Except.ok.inj h)]
  | error e =>
    rw [hresult] at h
    cases e
    all_goals cases h

theorem linkedLeaf_eq_error {current : BTreeNode} {e : Error} (h : linkedLeaf read current = .error e) :
    ∃ message, e = .panic message := by
  unfold linkedLeaf at h
  split at h
  · exact tryRead_eq_error h
  · cases h

theorem returns_linkedLeaf_iff (hread : ReadsNodes read) (current : BTreeNode) :
    Returns (linkedLeaf read current) ↔ (current.nextLeaf ≠ 0 → Asks read current.nextLeaf) := by
  unfold linkedLeaf
  split
  next hlink => rw [returns_tryRead_iff hread, forall_prop_of_true hlink]
  next hlink => exact iff_of_true (returns_ok none) (fun h => absurd h hlink)

theorem returns_map_iff {α β : Type} (f : α → β) (r : Except Error α) : Returns (r.map f) ↔ Returns r := by
  cases r with
  | ok a => exact iff_of_true (returns_ok _) (returns_ok a)
  | error e => exact ⟨fun h => h.error, fun h => h.error⟩

section Leaf

variable {root current : BTreeNode}

theorem halts_nextLeafByKey_iff (hread : ReadsNodes read) (hroot : read rootPage = .ok root)
    (current : BTreeNode) :
    Halts (fun fuel => nextLeafByKey read fuel root current) ↔
      ∀ last, current.entries.getLast? = some last → Traversable (laterLeafStep read last.key) (read rootPage) := by
  cases hlast : current.entries.getLast? with
  | none =>
    refine iff_of_true ⟨0, ?_⟩ (fun last h => by cases h)
    dsimp only
    rw [nextLeafByKey, hlast]
    exact returns_ok none
  | some last =>
    have hlater : Halts (fun fuel => depthFirst .diverged (laterLeafStep read last.key) fuel (read rootPage)) ↔
        Traversable (laterLeafStep read last.key) (read rootPage) :=
      halts_depthFirst_iff hread (follows_laterLeafStep last.key) (panics_laterLeafStep last.key)
    have heach : Halts (fun fuel => nextLeafByKey read fuel root current) ↔
        Halts (fun fuel => depthFirst .diverged (laterLeafStep read last.key) fuel (read rootPage)) := by
      refine exists_congr fun fuel => ?_
      dsimp only
      rw [nextLeafByKey_eq hlast, returns_map_iff, hroot]
    rw [heach, hlater]
    constructor
    · intro h last' hlast'
      rw [← Option.some.inj hlast']
      exact h
    · intro h
      exact h last rfl

-- A walk that returned has an answer, and keeps it when more rounds are allowed.
theorem isPageInTree_of_returns {target : PageNum} {result : Except Error BTreeNode} {fuel : Nat}
    (h : Returns (isPageInTree read target fuel result)) :
    ∃ r, ∀ fuel', fuel ≤ fuel' → isPageInTree read target fuel' result = .ok r := by
  rw [isPageInTree_eq] at h
  cases hr : depthFirst .diverged (memberStep read target) fuel result with
  | ok r =>
    refine ⟨r, fun fuel' hle => ?_⟩
    rw [isPageInTree_eq]
    exact depthFirst_mono hr hle
  | error e =>
    rw [hr] at h
    exact absurd h (not_returns_depthFirst (panics_memberStep target) hr)

theorem nextLeafByKey_mono {fuel fuel' : Nat} (h : Returns (nextLeafByKey read fuel root current))
    (hle : fuel ≤ fuel') : Returns (nextLeafByKey read fuel' root current) := by
  cases hlast : current.entries.getLast? with
  | none =>
    rw [nextLeafByKey, hlast]
    exact returns_ok none
  | some last =>
    rw [nextLeafByKey_eq hlast, returns_map_iff] at h ⊢
    cases hr : depthFirst .diverged (laterLeafStep read last.key) fuel (.ok root) with
    | ok r =>
      rw [depthFirst_mono hr hle]
      exact returns_ok _
    | error e =>
      rw [hr] at h
      exact absurd h (not_returns_depthFirst (panics_laterLeafStep last.key) hr)

-- With a leaf that is linked, the tree is searched for it, and for the key when it is not found.
theorem halts_member_iff (hread : ReadsNodes read) (hroot : read rootPage = .ok root)
    (leaf current : BTreeNode) :
    Halts (fun fuel => do
      match ← isPageInTree read leaf.pageNum fuel (.ok root) with
      | some () => .ok (some leaf)
      | none => nextLeafByKey read fuel root current) ↔
    Traversable (memberStep read leaf.pageNum) (read rootPage) ∧
      (Barren (memberStep read leaf.pageNum) (read rootPage) → ∀ last, current.entries.getLast? = some last →
        Traversable (laterLeafStep read last.key) (read rootPage)) := by
  have hmember : Halts (fun fuel => depthFirst .diverged (memberStep read leaf.pageNum) fuel (read rootPage)) ↔
      Traversable (memberStep read leaf.pageNum) (read rootPage) :=
    halts_depthFirst_iff hread (follows_memberStep leaf.pageNum) (panics_memberStep leaf.pageNum)
  have hlater := halts_nextLeafByKey_iff hread hroot current
  simp only [← isPageInTree_eq] at hmember
  rw [hroot] at hmember hlater ⊢
  constructor
  · rintro ⟨fuel, hreturns⟩
    dsimp only [bind, Except.bind] at hreturns
    have hfound : Returns (isPageInTree read leaf.pageNum fuel (.ok root)) := by
      cases h : isPageInTree read leaf.pageNum fuel (.ok root) with
      | ok r => exact returns_ok r
      | error e =>
        rw [h] at hreturns
        exact hreturns.error
    refine ⟨hmember.mp ⟨fuel, hfound⟩, fun hbarren => ?_⟩
    -- The leaf is not in the tree, so the search by key was done.
    have hnone : isPageInTree read leaf.pageNum fuel (.ok root) = .ok none := by
      rw [isPageInTree_eq] at hfound ⊢
      rcases hbarren.depthFirst .diverged fuel with h | h
      · exact h
      · rw [h] at hfound
        exact absurd rfl hfound.2
    rw [hnone] at hreturns
    exact hlater.mp ⟨fuel, hreturns⟩
  · rintro ⟨hmembers, hkeys⟩
    obtain ⟨fuel, hfound⟩ := hmember.mpr hmembers
    obtain ⟨r, hr⟩ := isPageInTree_of_returns hfound
    cases r with
    | some found =>
      refine ⟨fuel, ?_⟩
      dsimp only [bind, Except.bind]
      rw [hr fuel le_rfl]
      exact returns_ok _
    | none =>
      have hbarren : Barren (memberStep read leaf.pageNum) (.ok root) := by
        have hnone := hr fuel le_rfl
        rw [isPageInTree_eq] at hnone
        exact barren_of_depthFirst hnone
      obtain ⟨fuel', hbyKey⟩ := hlater.mpr (hkeys hbarren)
      refine ⟨max fuel fuel', ?_⟩
      dsimp only [bind, Except.bind]
      rw [hr _ (le_max_left fuel fuel')]
      exact nextLeafByKey_mono hbyKey (le_max_right fuel fuel')

-- A root that is refused is no tree, and there is nothing to search.
theorem nextTraversable_refused {e : Error} (hroot : read rootPage = .error e)
    (hnot : ∀ message, e ≠ .panic message)
    (hlinked : current.nextLeaf ≠ 0 → Asks read current.nextLeaf) :
    NextTraversable read rootPage current := by
  have hmember : ∀ target, memberStep read target (.error e) = .children [] := by
    intro target
    cases e with
    | panic message => exact absurd rfl (hnot message)
    | _ => rfl
  have hlater : ∀ key, laterLeafStep read key (.error e) = .children [] := by
    intro key
    cases e with
    | panic message => exact absurd rfl (hnot message)
    | _ => rfl
  refine ⟨hlinked, ?_, ?_, ?_⟩
  · intro message h
    rw [hroot] at h
    exact hnot message (Except.error.inj h)
  · intro leaf _
    rw [hroot]
    exact traversable_of_childless (hmember leaf.pageNum)
  · intro _ last _
    rw [hroot]
    exact traversable_of_childless (hlater last.key)

theorem halts_nextLeaf_iff (hread : ReadsNodes read) (rootPage : PageNum) (current : BTreeNode) :
    Halts (fun fuel => nextLeaf read rootPage fuel current) ↔ NextTraversable read rootPage current := by
  have hlink := returns_linkedLeaf_iff hread current
  unfold nextLeaf
  cases hlinked : linkedLeaf read current with
  | error e =>
    rw [hlinked] at hlink
    obtain ⟨message, rfl⟩ := linkedLeaf_eq_error hlinked
    refine iff_of_false ?_ (fun h => (hlink.mpr h.linked).1 message rfl)
    rintro ⟨fuel, hreturns⟩
    exact hreturns.1 message rfl
  | ok linked =>
    rw [hlinked] at hlink
    have hask := hlink.mp (returns_ok linked)
    cases htry : tryRead read rootPage with
    | error e =>
      obtain ⟨message, rfl⟩ := tryRead_eq_error htry
      refine iff_of_false ?_ (fun h => ?_)
      · rintro ⟨fuel, hreturns⟩
        exact hreturns.1 message rfl
      · have hreturns := (returns_tryRead_iff hread rootPage).mpr h.root
        rw [htry] at hreturns
        exact hreturns.1 message rfl
    | ok r =>
      cases r with
      | none =>
        obtain ⟨e, hroot, hnot⟩ := tryRead_eq_none htry
        exact iff_of_true ⟨0, returns_ok none⟩ (nextTraversable_refused hroot hnot hask)
      | some root =>
        have hroot := tryRead_eq_some htry
        have hasks : Asks read rootPage := by
          intro message h
          rw [hroot] at h
          cases h
        cases linked with
        | none =>
          refine (halts_nextLeafByKey_iff hread hroot current).trans ⟨fun h => ?_, fun h => ?_⟩
          · refine ⟨hask, hasks, fun leaf hleaf => ?_, fun _ => h⟩
            rw [hlinked] at hleaf
            cases hleaf
          · refine h.later fun leaf hleaf => ?_
            rw [hlinked] at hleaf
            cases hleaf
        | some leaf =>
          have honly : ∀ leaf', linkedLeaf read current = .ok (some leaf') → leaf = leaf' := by
            intro leaf' hleaf'
            rw [hlinked] at hleaf'
            exact Option.some.inj (Except.ok.inj hleaf')
          refine (halts_member_iff hread hroot leaf current).trans ⟨fun h => ?_, fun h => ?_⟩
          · refine ⟨hask, hasks, fun leaf' hleaf' => ?_, fun hbarren => h.2 (hbarren leaf hlinked)⟩
            rw [← honly leaf' hleaf']
            exact h.1
          · refine ⟨h.member leaf hlinked, fun hbarren => h.later fun leaf' hleaf' => ?_⟩
            rw [← honly leaf' hleaf']
            exact hbarren

end Leaf

theorem halts_nextFrom_iff (hread : ReadsNodes read) (it : TxBTree.Cursor) :
    Halts (nextFrom read rootPage it) ↔ ∀ current, it.currentLeaf = some current → it.started = true →
      current.entries.length ≤ it.index + 1 → NextTraversable read rootPage current := by
  unfold nextFrom
  cases hleaf : it.currentLeaf with
  | none => exact iff_of_true ⟨0, returns_ok _⟩ (fun current h => by cases h)
  | some current =>
    dsimp only
    by_cases hstarted : it.started = true
    · by_cases hmore : it.index + 1 < current.entries.length
      · refine iff_of_true ⟨0, ?_⟩ ?_
        · dsimp only
          rw [if_neg (by simp [hstarted]), if_pos hmore]
          exact returns_ok _
        · intro current' hcurrent _ hend
          cases hcurrent
          omega
      · have hnext := halts_nextLeaf_iff hread rootPage current
        constructor
        · rintro ⟨fuel, hreturns⟩ current' hcurrent _ _
          cases hcurrent
          refine hnext.mp ⟨fuel, ?_⟩
          dsimp only at hreturns ⊢
          rw [if_neg (by simp [hstarted]), if_neg hmore] at hreturns
          cases h : nextLeaf read rootPage fuel current with
          | ok r => exact returns_ok r
          | error e =>
            rw [h] at hreturns
            exact hreturns.error
        · intro h
          obtain ⟨fuel, hreturns⟩ := hnext.mpr (h current rfl hstarted (by omega))
          refine ⟨fuel, ?_⟩
          dsimp only at hreturns ⊢
          rw [if_neg (by simp [hstarted]), if_neg hmore]
          refine returns_bind hreturns fun r _ => ?_
          cases r with
          | none => exact returns_ok _
          | some leaf => exact returns_ok _
    · refine iff_of_true ⟨0, ?_⟩ ?_
      · dsimp only
        rw [if_pos (by simp [hstarted])]
        exact returns_ok _
      · intro current' _ hstart
        exact absurd hstart hstarted

end Lookups

section Handles

variable (s : PageStore)

-- What a handle gets for a page and decodes.
def readDecoded (w : HashMap PageNum Bytes) (pageNum : PageNum) : Except Error BTreeNode := do
  let data ← fetch w s pageNum
  deserializeNode pageNum data

theorem btreeReadNode_eq (t : BTree) (p : PageNum) :
    btreeReadNode s t p = readDecoded s ∅ (t.actualPage p) := rfl

theorem TxBTree.readNode_eq (t : TxBTree) (p : PageNum) :
    t.readNode s p = readDecoded s t.txWrites (t.actualPage p) := by
  unfold TxBTree.readNode readDecoded fetch
  cases t.txWrites.get? (t.actualPage p) with
  | some data => rfl
  | none => rfl

variable (w : HashMap PageNum Bytes)

theorem readDecoded_panics_iff (pageNum : PageNum) :
    (∃ message, readDecoded s w pageNum = .error (.panic message)) ↔ ReadPanics w s pageNum := by
  unfold readDecoded
  rcases fetch_cases (w := w) (s := s) pageNum with ⟨hpanics, message, hfetch⟩ | ⟨hnot, hreturns⟩
  · rw [hfetch]
    exact iff_of_true ⟨message, rfl⟩ hpanics
  · refine iff_of_false ?_ hnot
    rintro ⟨message, h⟩
    exact (returns_bind hreturns fun data _ => returns_deserializeNode pageNum data).1 message h

theorem readDecoded_ends (pageNum : PageNum) : readDecoded s w pageNum ≠ .error .diverged := by
  unfold readDecoded
  rcases fetch_cases (w := w) (s := s) pageNum with ⟨-, message, hfetch⟩ | ⟨-, hreturns⟩
  · rw [hfetch]
    exact fun h => by cases h
  · exact (returns_bind hreturns fun data _ => returns_deserializeNode pageNum data).2

theorem decoded_readDecoded {pageNum : PageNum} {node : BTreeNode} (h : readDecoded s w pageNum = .ok node) :
    Decoded node := by
  obtain ⟨data, -, hnode⟩ := bind_eq_ok h
  exact decoded_deserializeNode hnode

theorem readsNodes_btree (t : BTree) : ReadsNodes (btreeReadNode s t) := by
  refine ⟨?_, ?_⟩
  · intro p
    rw [btreeReadNode_eq]
    exact readDecoded_ends s ∅ _
  · intro p node h
    rw [btreeReadNode_eq] at h
    exact decoded_readDecoded s ∅ h

theorem TxBTree.readsNodes (t : TxBTree) : ReadsNodes (t.readNode s) := by
  refine ⟨?_, ?_⟩
  · intro p
    rw [TxBTree.readNode_eq]
    exact readDecoded_ends s t.txWrites _
  · intro p node h
    rw [TxBTree.readNode_eq] at h
    exact decoded_readDecoded s t.txWrites h

theorem picks_btree (key : String) : Picks (BTree.findChild · key) := by
  refine ⟨?_, ?_⟩
  · intro node p h
    unfold BTree.findChild at h
    split at h
    · cases h
    · dsimp only at h
      split at h
      next child hchild =>
        cases h
        exact List.mem_of_getElem? hchild
      next => cases h
  · intro node h
    unfold BTree.findChild at h
    split at h
    · cases h
    · dsimp only at h
      split at h
      · cases h
      · cases h

theorem picks_txBTree (key : String) : Picks (JasonDb.TxBTree.findChild · key) := by
  refine ⟨?_, ?_⟩
  · intro node p h
    unfold JasonDb.TxBTree.findChild at h
    split at h
    · split at h
      next child hchild =>
        cases h
        exact List.mem_of_getElem? hchild
      next => cases h
    · split at h
      next child hchild =>
        cases h
        exact List.mem_of_getLast? hchild
      next => cases h
  · intro node h
    unfold JasonDb.TxBTree.findChild at h
    split at h
    · split at h
      · cases h
      · cases h
    · split at h
      · cases h
      · cases h

-- Lookups on pages with any content. Decoding a page never fails, and reading one panics exactly
-- where its place in the file does not fit. Each of the walks returns exactly when it meets no page
-- and no node it panics at and no way back to a node it comes from.
theorem lookups_return_iff (s : PageStore) :
    (∀ pageNum data, Returns (deserializeNode pageNum data)) ∧
    (∀ (t : BTree) p, (∃ message, btreeReadNode s t p = .error (.panic message)) ↔
      ReadPanics ∅ s (t.actualPage p)) ∧
    (∀ (t : TxBTree) p, (∃ message, t.readNode s p = .error (.panic message)) ↔
      ReadPanics t.txWrites s (t.actualPage p)) ∧
    (∀ (t : BTree) key, Halts (btreeSearch s t key) ↔
      Traversable (descentStep (btreeReadNode s t) (BTree.findChild · key)) (btreeReadNode s t t.getRootPage)) ∧
    (∀ (t : TxBTree) key, Halts (t.search s key) ↔
      Traversable (descentStep (t.readNode s) (JasonDb.TxBTree.findChild · key)) (t.readNode s t.getCurrentRoot)) ∧
    (∀ t : TxBTree, Halts (t.iterator s) ↔
      Traversable (descentStep (t.readNode s) pickFirst) (t.readNode s t.getCurrentRoot)) ∧
    (∀ (t : TxBTree) (it : JasonDb.TxBTree.Cursor), Halts (t.next s it) ↔
      ∀ current, it.currentLeaf = some current → it.started = true →
        current.entries.length ≤ it.index + 1 → NextTraversable (t.readNode s) t.getCurrentRoot current) := by
  refine ⟨returns_deserializeNode, ?_, ?_, ?_, ?_, ?_, ?_⟩
  · intro t p
    rw [btreeReadNode_eq]
    exact readDecoded_panics_iff s ∅ _
  · intro t p
    rw [TxBTree.readNode_eq]
    exact readDecoded_panics_iff s t.txWrites _
  · intro t key
    exact halts_searchFrom_iff (readsNodes_btree s t) (picks_btree key) key
      (returns_error (fun _ h => by cases h) (fun h => by cases h))
  · intro t key
    exact halts_searchFrom_iff (t.readsNodes s) (picks_txBTree key) key
      (returns_error (fun _ h => by cases h) (fun h => by cases h))
  · intro t
    exact halts_iteratorFrom_iff (t.readsNodes s)
  · intro t it
    exact halts_nextFrom_iff (t.readsNodes s) it

end Handles

section Corrupt

-- An internal node that is its own child.
def loopNode : BTreeNode := { BTreeNode.newInternal 1 with children := [1] }

def loopPage : Bytes := (nodeFields loopNode).flatten ++ List.replicate 4075 0

theorem deserializeNode_loopPage : deserializeNode 1 loopPage = .ok loopNode :=
  deserializeNode_padded (encodable_internal (by decide) (by decide)) 4075 rfl

theorem btreeReadNode_constantStore (page : Bytes) (root p : PageNum) :
    btreeReadNode (constantStore page) (BTree.open root) p = deserializeNode p page := rfl

theorem TxBTree.readNode_constantStore (page : Bytes) (root p : PageNum) :
    (⟨root, 0, ∅, ∅⟩ : TxBTree).readNode (constantStore page) p = deserializeNode p page := rfl

theorem descend_loopNode {read : PageNum → Except Error BTreeNode} (hread : read 1 = .ok loopNode)
    (key : String) (fuel : Nat) : descend read (BTree.findChild · key) fuel (.ok loopNode) = .error .diverged := by
  induction fuel with
  | zero => rfl
  | succ fuel ih =>
    have hpick : BTree.findChild loopNode key = .ok 1 := rfl
    have htype : loopNode.nodeType = .internalNode := rfl
    rw [descend]
    dsimp only [bind, Except.bind]
    rw [htype]
    dsimp only
    rw [hpick]
    dsimp only
    rw [hread]
    exact ih

-- The search of a transaction panics on a page of zeros, and the search of the in-place tree does
-- not end on a node that is its own child.
theorem lookups_corrupt :
    ¬ Halts ((⟨1, 0, ∅, ∅⟩ : TxBTree).search (constantStore zeroPage) "a") ∧
      ¬ Halts (btreeSearch (constantStore loopPage) (BTree.open 1) "a") := by
  refine ⟨?_, ?_⟩
  · have hroot : (⟨1, 0, ∅, ∅⟩ : TxBTree).readNode (constantStore zeroPage) 1 = .ok (.newInternal 1) := by
      rw [TxBTree.readNode_constantStore]
      exact deserializeNode_zeroPage 1
    rintro ⟨fuel, hreturns⟩
    change Returns (searchFrom _ 1 _ _ _ fuel) at hreturns
    unfold searchFrom at hreturns
    rw [hroot] at hreturns
    cases fuel with
    | zero => exact hreturns.2 rfl
    | succ fuel => exact hreturns.1 _ rfl
  · have hroot : btreeReadNode (constantStore loopPage) (BTree.open 1) 1 = .ok loopNode := by
      rw [btreeReadNode_constantStore]
      exact deserializeNode_loopPage
    rintro ⟨fuel, hreturns⟩
    change Returns (searchFrom _ 1 _ _ _ fuel) at hreturns
    unfold searchFrom at hreturns
    rw [hroot] at hreturns
    dsimp only [bind, Except.bind] at hreturns
    rw [descend_loopNode hroot "a" fuel] at hreturns
    exact hreturns.2 rfl

end Corrupt

end JasonDb.Codec
