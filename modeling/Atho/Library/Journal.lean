import Mathlib.Data.Finmap
import Mathlib.Tactic

/-! Keyed stores changed by takes and puts, and the flat undo journal that
remembers which entries were taken and which keys were put. Rolling such a
journal back erases every key that was put and then puts every taken entry
back, so the order in which takes and puts met at one key is lost. -/

namespace Journal

variable [DecidableEq K]

inductive Op (K V : Type) where
  | take (key : K)
  | put (key : K) (value : V)
  deriving DecidableEq

namespace Op

def key : Op K V → K
  | take key => key
  | put key _ => key

/-- A take needs a held key, a put a free one. -/
def enabled (store : K → Option V) : Op K V → Bool
  | take key => (store key).isSome
  | put key _ => (store key).isNone

def apply (store : K → Option V) : Op K V → K → Option V
  | take key => Function.update store key none
  | put key value => Function.update store key (some value)

theorem apply_of_ne {store : K → Option V} {op : Op K V} {other : K}
    (hne : other ≠ op.key) : op.apply store other = store other := by
  cases op <;> simp_all [apply, Op.key]

end Op

def applyAll (store : K → Option V) (ops : List (Op K V)) : K → Option V :=
  ops.foldl Op.apply store

/-- Every operation is enabled when its turn comes. -/
def Runs (store : K → Option V) : List (Op K V) → Prop
  | [] => True
  | op :: ops => op.enabled store = true ∧ Runs (op.apply store) ops

/-- The entries that the takes of a run remove, in order. -/
def taken (store : K → Option V) : List (Op K V) → List (K × V)
  | [] => []
  | .take key :: ops =>
      ((store key).map (key, ·)).toList ++ taken (Function.update store key none) ops
  | .put key value :: ops => taken (Function.update store key (some value)) ops

/-- The keys that are put, in order. -/
def puts : List (Op K V) → List K
  | [] => []
  | .take _ :: ops => puts ops
  | .put key _ :: ops => key :: puts ops

@[simp] theorem applyAll_nil (store : K → Option V) : applyAll store [] = store :=
  rfl

@[simp] theorem applyAll_cons (store : K → Option V) (op : Op K V)
    (ops : List (Op K V)) :
    applyAll store (op :: ops) = applyAll (op.apply store) ops :=
  rfl

theorem applyAll_append (store : K → Option V) (first second : List (Op K V)) :
    applyAll store (first ++ second) = applyAll (applyAll store first) second :=
  List.foldl_append

theorem applyAll_snoc (store : K → Option V) (ops : List (Op K V)) (op : Op K V) :
    applyAll store (ops ++ [op]) = op.apply (applyAll store ops) :=
  List.foldl_concat ..

theorem runs_append (store : K → Option V) (first second : List (Op K V)) :
    Runs store (first ++ second) ↔
      Runs store first ∧ Runs (applyAll store first) second := by
  induction first generalizing store with
  | nil => simp [Runs]
  | cons op ops ih => simp [Runs, ih, and_assoc]

theorem taken_append (store : K → Option V) (first second : List (Op K V)) :
    taken store (first ++ second) =
      taken store first ++ taken (applyAll store first) second := by
  induction first generalizing store with
  | nil => rfl
  | cons op ops ih => cases op <;> simp [taken, ih, Op.apply]

omit [DecidableEq K] in
theorem puts_append (first second : List (Op K V)) :
    puts (first ++ second) = puts first ++ puts second := by
  induction first with
  | nil => rfl
  | cons op ops ih => cases op <;> simp [puts, ih]

theorem applyAll_of_notMem {store : K → Option V} {ops : List (Op K V)}
    (hnot : key ∉ ops.map Op.key) : applyAll store ops key = store key := by
  induction ops generalizing store with
  | nil => rfl
  | cons op ops ih =>
      simp only [List.map_cons, List.mem_cons, not_or] at hnot
      rw [applyAll_cons, ih hnot.2, Op.apply_of_ne hnot.1]

/-! Keys that a run does not touch. -/

theorem apply_update {store : K → Option V} {op : Op K V} (hne : op.key ≠ key)
    (value : Option V) :
    op.apply (Function.update store key value) =
      Function.update (op.apply store) key value := by
  cases op with
  | take taking => exact Function.update_comm (Ne.symm hne) ..
  | put putting held => exact Function.update_comm (Ne.symm hne) ..

theorem enabled_update {store : K → Option V} {op : Op K V} (hne : op.key ≠ key)
    (value : Option V) :
    op.enabled (Function.update store key value) = op.enabled store := by
  cases op with
  | take taking => exact congrArg Option.isSome (Function.update_of_ne hne ..)
  | put putting held => exact congrArg Option.isNone (Function.update_of_ne hne ..)

theorem runs_update {store : K → Option V} {ops : List (Op K V)}
    (hnot : key ∉ ops.map Op.key) (value : Option V) :
    Runs (Function.update store key value) ops ↔ Runs store ops := by
  induction ops generalizing store with
  | nil => exact Iff.rfl
  | cons op ops ih =>
      simp only [List.map_cons, List.mem_cons, not_or] at hnot
      have hne := Ne.symm hnot.1
      rw [Runs, Runs, enabled_update hne, apply_update hne, ih hnot.2]

theorem applyAll_update {store : K → Option V} {ops : List (Op K V)}
    (hnot : key ∉ ops.map Op.key) (value : Option V) :
    applyAll (Function.update store key value) ops =
      Function.update (applyAll store ops) key value := by
  induction ops generalizing store with
  | nil => rfl
  | cons op ops ih =>
      simp only [List.map_cons, List.mem_cons, not_or] at hnot
      rw [applyAll_cons, applyAll_cons, apply_update (Ne.symm hnot.1), ih hnot.2]

theorem taken_update {store : K → Option V} {ops : List (Op K V)}
    (hnot : key ∉ ops.map Op.key) (value : Option V) :
    taken (Function.update store key value) ops = taken store ops := by
  induction ops generalizing store with
  | nil => rfl
  | cons op ops ih =>
      simp only [List.map_cons, List.mem_cons, not_or] at hnot
      have happly : op.apply (Function.update store key value) = _ :=
        apply_update (Ne.symm hnot.1) value
      cases op with
      | take taking =>
          have hsame := Function.update_of_ne (Ne.symm hnot.1) value store
          simp only [Op.apply] at happly
          simp only [Op.key] at hsame
          rw [taken, taken, happly, ih hnot.2, hsame]
      | put putting held =>
          simp only [Op.apply] at happly
          rw [taken, taken, happly, ih hnot.2]

theorem notMem_of_runs {store : K → Option V} {ops : List (Op K V)}
    (hruns : Runs store ops) (hfree : store key = none)
    (hputs : ∀ value, Op.put key value ∉ ops) : key ∉ ops.map Op.key := by
  induction ops generalizing store with
  | nil => simp
  | cons op ops ih =>
      simp only [List.mem_cons, not_or] at hputs
      have hne : key ≠ op.key := by
        rintro rfl
        cases op with
        | take taking =>
            change store taking = none at hfree
            simp [Runs, Op.enabled, hfree] at hruns
        | put putting value => exact (hputs value).1 rfl
      simp only [List.map_cons, List.mem_cons, not_or]
      refine ⟨hne, ih hruns.2 ?_ fun value => (hputs value).2⟩
      rw [Op.apply_of_ne hne, hfree]

/-! What a run moves, counted with a weight on the values. -/

theorem lookup_insert_eq (entries : Finmap fun _ : K => V) (key : K) (value : V) :
    ((entries.insert key value).lookup ·) =
      Function.update (entries.lookup ·) key (some value) := by
  funext other
  by_cases hother : other = key
  · subst hother
    simp
  · simp [hother, Finmap.lookup_insert_of_ne _ hother]

theorem lookup_erase_eq (entries : Finmap fun _ : K => V) (key : K) :
    ((entries.erase key).lookup ·) = Function.update (entries.lookup ·) key none := by
  funext other
  by_cases hother : other = key
  · subst hother
    simp
  · simp [hother, Finmap.lookup_erase_ne hother]

section Weight

variable (weight : V → Nat)

def takenWeight (store : K → Option V) (ops : List (Op K V)) : Nat :=
  ((taken store ops).map fun entry => weight entry.2).sum

def putWeight (ops : List (Op K V)) : Nat :=
  (ops.map fun op => match op with
    | .take _ => 0
    | .put _ value => weight value).sum

def weigh (entries : Finmap fun _ : K => V) : Nat :=
  (entries.entries.map fun entry => weight entry.2).sum

theorem takenWeight_append (store : K → Option V) (first second : List (Op K V)) :
    takenWeight weight store (first ++ second) =
      takenWeight weight store first + takenWeight weight (applyAll store first) second := by
  simp [takenWeight, taken_append]

omit [DecidableEq K] in
theorem putWeight_append (first second : List (Op K V)) :
    putWeight weight (first ++ second) = putWeight weight first + putWeight weight second := by
  simp [putWeight]

theorem weigh_insert {entries : Finmap fun _ : K => V} (hfree : key ∉ entries) :
    weigh weight (entries.insert key value) = weight value + weigh weight entries := by
  simp [weigh, Finmap.entries_insert_of_notMem hfree]

theorem weigh_erase {entries : Finmap fun _ : K => V} (hheld : entries.lookup key = some value) :
    weight value + weigh weight (entries.erase key) = weigh weight entries := by
  have hback : (entries.erase key).insert key value = entries := by
    refine Finmap.ext_lookup fun other => ?_
    by_cases hother : other = key
    · subst hother
      rw [Finmap.lookup_insert, hheld]
    · rw [Finmap.lookup_insert_of_ne _ hother, Finmap.lookup_erase_ne hother]
  rw [← weigh_insert weight Finmap.notMem_erase_self, hback]

theorem weigh_run {entries entries' : Finmap fun _ : K => V} {ops : List (Op K V)}
    (hruns : Runs (entries.lookup ·) ops)
    (hfinal : (entries'.lookup ·) = applyAll (entries.lookup ·) ops) :
    weigh weight entries' + takenWeight weight (entries.lookup ·) ops =
      weigh weight entries + putWeight weight ops := by
  induction ops generalizing entries with
  | nil =>
      rw [Finmap.ext_lookup (congrFun hfinal)]
      rfl
  | cons op ops ih =>
      cases op with
      | take taking =>
          obtain ⟨value, hvalue⟩ := Option.isSome_iff_exists.mp hruns.1
          have hnext : ((entries.erase taking).lookup ·) =
              (Op.take taking).apply (entries.lookup ·) := lookup_erase_eq entries taking
          have hrest := ih (hnext ▸ hruns.2) (hnext ▸ hfinal)
          have herase := weigh_erase weight hvalue
          rw [hnext] at hrest
          simp only [takenWeight, putWeight, taken, hvalue, Option.map_some,
            Option.toList_some, List.singleton_append, List.map_cons, List.sum_cons,
            zero_add, Op.apply] at hrest ⊢
          omega
      | put putting value =>
          have hfree : entries.lookup putting = none := Option.isNone_iff_eq_none.mp hruns.1
          have hnext : ((entries.insert putting value).lookup ·) =
              (Op.put putting value).apply (entries.lookup ·) :=
            lookup_insert_eq entries putting value
          have hrest := ih (hnext ▸ hruns.2) (hnext ▸ hfinal)
          have hinsert : weigh weight (entries.insert putting value) = _ :=
            weigh_insert weight (Finmap.lookup_eq_none.mp hfree)
          rw [hnext] at hrest
          simp only [takenWeight, putWeight, taken, List.map_cons, List.sum_cons, Op.apply]
            at hrest ⊢
          omega

end Weight

/-! Rolling back. -/

def eraseAll (store : K → Option V) (keys : List K) : K → Option V :=
  keys.foldl (fun store key => Function.update store key none) store

def restoreAll (store : K → Option V) (entries : List (K × V)) : K → Option V :=
  entries.foldl (fun store entry => Function.update store entry.1 (some entry.2)) store

def rollback (store : K → Option V) (created : List K) (spent : List (K × V)) :
    K → Option V :=
  restoreAll (eraseAll store created) spent

theorem eraseAll_apply (store : K → Option V) (keys : List K) (key : K) :
    eraseAll store keys key = if key ∈ keys then none else store key := by
  induction keys generalizing store with
  | nil => simp [eraseAll]
  | cons head tail ih =>
      change eraseAll (Function.update store head none) tail key = _
      rw [ih]
      by_cases hhead : key = head <;> simp [hhead]

theorem restoreAll_snoc (store : K → Option V) (entries : List (K × V))
    (entry : K × V) :
    restoreAll store (entries ++ [entry]) =
      Function.update (restoreAll store entries) entry.1 (some entry.2) :=
  List.foldl_concat ..

theorem restoreAll_congr {store store' : K → Option V} {entries : List (K × V)}
    (heq : store key = store' key) :
    restoreAll store entries key = restoreAll store' entries key := by
  induction entries using List.reverseRecOn with
  | nil => exact heq
  | append_singleton entries entry ih =>
      by_cases hentry : key = entry.1 <;> simp [restoreAll_snoc, hentry, ih]

theorem restoreAll_of_mem {store store' : K → Option V} {entries : List (K × V)}
    (hmem : key ∈ entries.map Prod.fst) :
    restoreAll store entries key = restoreAll store' entries key := by
  induction entries using List.reverseRecOn with
  | nil => simp at hmem
  | append_singleton entries entry ih =>
      by_cases hentry : key = entry.1
      · simp [restoreAll_snoc, hentry]
      · simp only [List.map_append, List.mem_append, List.map_cons, List.map_nil,
          List.mem_singleton, hentry, or_false] at hmem
        simp [restoreAll_snoc, hentry, ih hmem]

theorem restoreAll_of_notMem {store : K → Option V} {entries : List (K × V)}
    (hnot : key ∉ entries.map Prod.fst) :
    restoreAll store entries key = store key := by
  induction entries using List.reverseRecOn with
  | nil => rfl
  | append_singleton entries entry ih =>
      simp only [List.map_append, List.mem_append, List.map_cons, List.map_nil,
        List.mem_singleton, not_or] at hnot
      simp [restoreAll_snoc, hnot.2, ih hnot.1]

theorem rollback_congr {store store' : K → Option V} {created : List K}
    {spent : List (K × V)} (heq : store key = store' key) :
    rollback store created spent key = rollback store' created spent key := by
  refine restoreAll_congr ?_
  simp [eraseAll_apply, heq]

theorem rollback_of_notMem {store : K → Option V} {created : List K}
    {spent : List (K × V)} (hcreated : key ∉ created)
    (hspent : key ∉ spent.map Prod.fst) :
    rollback store created spent key = store key := by
  rw [rollback, restoreAll_of_notMem hspent, eraseAll_apply, if_neg hcreated]

theorem rollback_of_mem {store store' : K → Option V} {created : List K}
    {spent : List (K × V)} (hmem : key ∈ created ∨ key ∈ spent.map Prod.fst) :
    rollback store created spent key = rollback store' created spent key := by
  rcases hmem with hcreated | hspent
  · refine restoreAll_congr ?_
    simp [eraseAll_apply, hcreated]
  · exact restoreAll_of_mem hspent

theorem mem_journal_of_runs {store : K → Option V} {ops : List (Op K V)}
    (hruns : Runs store ops) (hmem : key ∈ ops.map Op.key) :
    key ∈ puts ops ∨ key ∈ (taken store ops).map Prod.fst := by
  induction ops generalizing store with
  | nil => simp at hmem
  | cons op ops ih =>
      simp only [List.map_cons, List.mem_cons] at hmem
      cases op with
      | take taking =>
          obtain ⟨value, hvalue⟩ := Option.isSome_iff_exists.mp hruns.1
          rcases hmem with rfl | hmem
          · simp [taken, hvalue]
          · rcases ih hruns.2 hmem with hput | htaken
            · exact .inl hput
            · refine .inr ?_
              simp only [taken, List.map_append, List.mem_append]
              exact .inr htaken
      | put putting value =>
          rcases hmem with rfl | hmem
          · simp [puts]
          · rcases ih hruns.2 hmem with hput | htaken
            · exact .inl (List.mem_cons_of_mem _ hput)
            · exact .inr htaken

theorem notMem_journal {store : K → Option V} {ops : List (Op K V)}
    (hnot : key ∉ ops.map Op.key) :
    key ∉ puts ops ∧ key ∉ (taken store ops).map Prod.fst := by
  induction ops generalizing store with
  | nil => simp [puts, taken]
  | cons op ops ih =>
      simp only [List.map_cons, List.mem_cons, not_or] at hnot
      cases op with
      | take taking =>
          obtain ⟨hput, htaken⟩ := @ih (Function.update store taking none) hnot.2
          refine ⟨hput, ?_⟩
          cases hvalue : store taking with
          | none => simpa [taken, hvalue] using htaken
          | some value =>
              simp only [taken, hvalue, Option.map_some, Option.toList_some,
                List.singleton_append, List.map_cons, List.mem_cons, not_or]
              exact ⟨hnot.1, htaken⟩
      | put putting value =>
          obtain ⟨hput, htaken⟩ := @ih (Function.update store putting (some value)) hnot.2
          exact ⟨by simpa [puts] using ⟨hnot.1, hput⟩, htaken⟩

/-! What the operations of a run have themselves put under one key and still
hold there, and what the last take under that key found of their own. -/

structure Trail (V : Type) where
  held : Option V
  retaken : Option V
  deriving DecidableEq

def Trail.step (key : K) (trail : Trail V) : Op K V → Trail V
  | .take taking => if taking = key then ⟨none, trail.held⟩ else trail
  | .put putting value => if putting = key then ⟨some value, trail.retaken⟩ else trail

def trail (ops : List (Op K V)) (key : K) : Trail V :=
  ops.foldl (Trail.step key) ⟨none, none⟩

/-- The value under `key` that the last take there removed, when the run itself
had put that value. -/
def retaken (ops : List (Op K V)) (key : K) : Option V :=
  (trail ops key).retaken

theorem trail_snoc (ops : List (Op K V)) (op : Op K V) (key : K) :
    trail (ops ++ [op]) key = (trail ops key).step key op :=
  List.foldl_concat ..

/-- What a run keeps true of one key: its own values are in the store, whatever
else is in the store was there before, and the journal rolls back to the value
last retaken, or else to what was there before. -/
structure Tracked (store : K → Option V) (ops : List (Op K V)) (key : K) : Prop where
  held : ∀ value, (trail ops key).held = some value →
    applyAll store ops key = some value
  original : (trail ops key).held = none → applyAll store ops key ≠ none →
    applyAll store ops key = store key
  recovered : rollback (applyAll store ops) (puts ops) (taken store ops) key =
    (retaken ops key).or (store key)

theorem rollback_put {store : K → Option V} {created : List K} {spent : List (K × V)}
    (hfree : store putting = none) :
    rollback (Function.update store putting (some value)) (created ++ [putting]) spent =
      rollback store created spent := by
  funext key
  refine restoreAll_congr ?_
  by_cases hkey : key = putting
  · simp [eraseAll_apply, hkey, hfree]
  · simp [eraseAll_apply, hkey]

theorem rollback_take {store : K → Option V} {created : List K}
    {spent : List (K × V)} :
    rollback (Function.update store taking none) created (spent ++ [(taking, value)]) =
      Function.update (rollback store created spent) taking (some value) := by
  funext key
  by_cases hkey : key = taking
  · simp [rollback, restoreAll_snoc, hkey]
  · have hsame : Function.update store taking none key = store key := by simp [hkey]
    simp only [rollback, restoreAll_snoc, Function.update_of_ne hkey]
    exact rollback_congr hsame

theorem Tracked.take {store : K → Option V} {ops : List (Op K V)}
    (htracked : Tracked store ops key)
    (henabled : (Op.take taking).enabled (applyAll store ops) = true) :
    Tracked store (ops ++ [.take taking]) key := by
  obtain ⟨value, hvalue⟩ := Option.isSome_iff_exists.mp henabled
  have hjournal : taken store (ops ++ [.take taking]) =
      taken store ops ++ [(taking, value)] := by
    simp [taken_append, taken, hvalue]
  by_cases hkey : taking = key
  · subst hkey
    refine ⟨?_, ?_, ?_⟩
    · simp [trail_snoc, Trail.step]
    · simp [applyAll_snoc, Op.apply]
    · rw [hjournal, puts_append, applyAll_snoc]
      simp only [puts, List.append_nil, Op.apply, rollback_take, Function.update_self,
        retaken, trail_snoc, Trail.step, if_true]
      cases hheld : (trail ops taking).held with
      | some own =>
          rw [htracked.held own hheld] at hvalue
          simpa using hvalue.symm
      | none =>
          have horiginal := htracked.original hheld (by simp [hvalue])
          simp [← horiginal, hvalue]
  · have hne : key ≠ taking := Ne.symm hkey
    refine ⟨?_, ?_, ?_⟩
    · simpa [trail_snoc, Trail.step, hkey, applyAll_snoc, Op.apply, hne]
        using htracked.held
    · simpa [trail_snoc, Trail.step, hkey, applyAll_snoc, Op.apply, hne]
        using htracked.original
    · rw [hjournal, puts_append, applyAll_snoc]
      simpa [puts, Op.apply, rollback_take, retaken, trail_snoc, Trail.step, hkey, hne]
        using htracked.recovered

theorem Tracked.put {store : K → Option V} {ops : List (Op K V)}
    (htracked : Tracked store ops key)
    (henabled : (Op.put putting value).enabled (applyAll store ops) = true) :
    Tracked store (ops ++ [.put putting value]) key := by
  have hfree : applyAll store ops putting = none := Option.isNone_iff_eq_none.mp henabled
  have hrecovered : rollback (applyAll store (ops ++ [.put putting value]))
      (puts (ops ++ [.put putting value])) (taken store (ops ++ [.put putting value])) key =
        (retaken ops key).or (store key) := by
    simpa [applyAll_snoc, Op.apply, puts_append, puts, taken_append, taken,
      rollback_put hfree] using htracked.recovered
  by_cases hkey : putting = key
  · subst hkey
    refine ⟨?_, ?_, ?_⟩
    · simp [trail_snoc, Trail.step, applyAll_snoc, Op.apply]
    · simp [trail_snoc, Trail.step]
    · simpa [retaken, trail_snoc, Trail.step] using hrecovered
  · have hne : key ≠ putting := Ne.symm hkey
    refine ⟨?_, ?_, ?_⟩
    · simpa [trail_snoc, Trail.step, hkey, applyAll_snoc, Op.apply, hne]
        using htracked.held
    · simpa [trail_snoc, Trail.step, hkey, applyAll_snoc, Op.apply, hne]
        using htracked.original
    · simpa [retaken, trail_snoc, Trail.step, hkey] using hrecovered

theorem tracked_of_runs {store : K → Option V} {ops : List (Op K V)}
    (hruns : Runs store ops) (key : K) : Tracked store ops key := by
  induction ops using List.reverseRecOn with
  | nil =>
      refine ⟨?_, ?_, ?_⟩ <;> simp [trail, retaken, taken, puts, rollback, restoreAll, eraseAll]
  | append_singleton ops op ih =>
      obtain ⟨hfirst, henabled, -⟩ := (runs_append store ops [op]).mp hruns
      cases op with
      | take taking => exact (ih hfirst).take henabled
      | put putting value => exact (ih hfirst).put henabled

/-- Rolling a run back leaves under each key the value last retaken there, and
what was there before the run where nothing was retaken. -/
theorem rollback_run {store : K → Option V} {ops : List (Op K V)}
    (hruns : Runs store ops) (key : K) :
    rollback (applyAll store ops) (puts ops) (taken store ops) key =
      (retaken ops key).or (store key) :=
  (tracked_of_runs hruns key).recovered

theorem mem_of_retaken {ops : List (Op K V)} (hretaken : retaken ops key = some value) :
    Op.put key value ∈ ops ∧ Op.take key ∈ ops := by
  suffices hinvariant : ∀ ops : List (Op K V),
      (∀ value, (trail ops key).held = some value → Op.put key value ∈ ops) ∧
      (∀ value, (trail ops key).retaken = some value →
        Op.put key value ∈ ops ∧ Op.take key ∈ ops) from
    (hinvariant ops).2 value hretaken
  intro ops
  induction ops using List.reverseRecOn with
  | nil => simp [trail]
  | append_singleton ops op ih =>
      rw [trail_snoc]
      cases op with
      | take taking => by_cases hkey : taking = key <;> simp_all [Trail.step]
      | put putting value =>
          by_cases hkey : putting = key
          · simp_all [Trail.step]
          · simp_all [Trail.step]

/-! Batches. A batch whose takes cannot all be carried out leaves no trace; a
put that finds its key held stops the run in the middle of its batch. -/

/-- The operations carried out up to the first one that is not enabled, and
that operation. -/
def advance (store : K → Option V) : List (Op K V) → List (Op K V) × Option (Op K V)
  | [] => ([], none)
  | op :: ops =>
      if op.enabled store then
        let (done, stopped) := advance (op.apply store) ops
        (op :: done, stopped)
      else ([], some op)

/-- The operations of a batch that count as carried out, and the operation that
stopped it. -/
def haltBatch (store : K → Option V) (batch : List (Op K V)) :
    List (Op K V) × Option (Op K V) :=
  match (advance store batch).2 with
  | some (.take key) => ([], some (.take key))
  | _ => advance store batch

def halt (store : K → Option V) : List (List (Op K V)) → List (Op K V) × Option (Op K V)
  | [] => ([], none)
  | batch :: rest =>
      match haltBatch store batch with
      | (done, none) =>
          let (more, stopped) := halt (applyAll store done) rest
          (done ++ more, stopped)
      | (done, some op) => (done, some op)

theorem advance_runs (store : K → Option V) (ops : List (Op K V)) :
    Runs store (advance store ops).1 := by
  induction ops generalizing store with
  | nil => trivial
  | cons op ops ih =>
      rw [advance]
      split
      · exact ⟨by assumption, ih _⟩
      · trivial

theorem advance_complete {store : K → Option V} {ops : List (Op K V)} :
    (advance store ops).2 = none ↔ Runs store ops := by
  induction ops generalizing store with
  | nil => simp [advance, Runs]
  | cons op ops ih =>
      by_cases henabled : op.enabled store <;> simp [advance, Runs, henabled, ih]

theorem advance_fst_of_complete {store : K → Option V} {ops : List (Op K V)}
    (hruns : Runs store ops) : (advance store ops).1 = ops := by
  induction ops generalizing store with
  | nil => rfl
  | cons op ops ih => simp [advance, hruns.1, ih hruns.2]

theorem advance_stopped_mem {store : K → Option V} {ops : List (Op K V)} {op : Op K V}
    (hstopped : (advance store ops).2 = some op) : op ∈ ops := by
  induction ops generalizing store with
  | nil => simp [advance] at hstopped
  | cons head tail ih =>
      by_cases henabled : head.enabled store
      · simp only [advance, henabled, if_true] at hstopped
        exact List.mem_cons_of_mem _ (ih hstopped)
      · simp only [advance, henabled, Bool.false_eq_true, if_false, Option.some.injEq]
          at hstopped
        simp [hstopped]

theorem advance_append (store : K → Option V) (first second : List (Op K V)) :
    advance store (first ++ second) =
      if (advance store first).2 = none then
        (first ++ (advance (applyAll store first) second).1,
          (advance (applyAll store first) second).2)
      else advance store first := by
  induction first generalizing store with
  | nil => simp [advance]
  | cons op ops ih =>
      by_cases henabled : op.enabled store
      · simp only [List.cons_append, advance, henabled, if_true, ih, applyAll_cons]
        split <;> simp_all
      · simp [advance, henabled]

theorem haltBatch_runs (store : K → Option V) (batch : List (Op K V)) :
    Runs store (haltBatch store batch).1 := by
  unfold haltBatch
  split
  · trivial
  · exact advance_runs store batch

theorem haltBatch_of_runs {store : K → Option V} {batch : List (Op K V)}
    (hruns : Runs store batch) : haltBatch store batch = (batch, none) := by
  have hnone := advance_complete.mpr hruns
  rw [haltBatch, hnone]
  exact Prod.ext (advance_fst_of_complete hruns) hnone

theorem haltBatch_of_take {store : K → Option V} {batch : List (Op K V)}
    (hstopped : (advance store batch).2 = some (.take key)) :
    haltBatch store batch = ([], some (.take key)) := by
  rw [haltBatch, hstopped]

theorem haltBatch_complete {store : K → Option V} {batch : List (Op K V)} :
    (haltBatch store batch).2 = none ↔ Runs store batch := by
  rw [← advance_complete, haltBatch]
  split <;> simp_all

theorem halt_cons_of_complete {store : K → Option V} {batch : List (Op K V)}
    {rest : List (List (Op K V))} (hruns : Runs store batch) :
    halt store (batch :: rest) =
      (batch ++ (halt (applyAll store batch) rest).1, (halt (applyAll store batch) rest).2) := by
  simp [halt, haltBatch_of_runs hruns]

theorem halt_cons_of_stopped {store : K → Option V} {batch : List (Op K V)}
    {rest : List (List (Op K V))} {op : Op K V}
    (hstopped : (haltBatch store batch).2 = some op) :
    halt store (batch :: rest) = haltBatch store batch := by
  have hbatch : haltBatch store batch = ((haltBatch store batch).1, some op) :=
    Prod.ext rfl hstopped
  rw [halt, hbatch]

theorem halt_runs (store : K → Option V) (batches : List (List (Op K V))) :
    Runs store (halt store batches).1 := by
  induction batches generalizing store with
  | nil => trivial
  | cons batch rest ih =>
      cases hstopped : (haltBatch store batch).2 with
      | none =>
          have hbatch := haltBatch_complete.mp hstopped
          rw [halt_cons_of_complete hbatch]
          exact (runs_append _ _ _).mpr ⟨hbatch, ih _⟩
      | some op =>
          rw [halt_cons_of_stopped hstopped]
          exact haltBatch_runs store batch

theorem halt_complete {store : K → Option V} {batches : List (List (Op K V))} :
    (halt store batches).2 = none ↔ Runs store batches.flatten := by
  induction batches generalizing store with
  | nil => simp [halt, Runs]
  | cons batch rest ih =>
      rw [List.flatten_cons, runs_append]
      cases hstopped : (haltBatch store batch).2 with
      | none =>
          have hbatch := haltBatch_complete.mp hstopped
          simp [halt_cons_of_complete hbatch, hbatch, ih]
      | some op =>
          have hbatch : ¬ Runs store batch := by simp [← haltBatch_complete, hstopped]
          simp [halt_cons_of_stopped hstopped, hstopped, hbatch]

theorem halt_fst_of_complete {store : K → Option V} {batches : List (List (Op K V))}
    (hruns : Runs store batches.flatten) : (halt store batches).1 = batches.flatten := by
  induction batches generalizing store with
  | nil => rfl
  | cons batch rest ih =>
      obtain ⟨hbatch, hrest⟩ := (runs_append _ _ _).mp hruns
      simp [halt_cons_of_complete hbatch, ih hrest]

/-- A put that clashes overwrites what it finds. -/
def clobber (store : K → Option V) : Option (Op K V) → K → Option V
  | some (.put key value) => Function.update store key (some value)
  | _ => store

/-- The store when the run that stopped at `stopped` has been rolled back. -/
def recovered (store : K → Option V) (done : List (Op K V)) (stopped : Option (Op K V)) :
    K → Option V :=
  rollback (clobber (applyAll store done) stopped) (puts done) (taken store done)

theorem clobber_apply (store : K → Option V) (stopped : Option (Op K V)) (key : K) :
    (∃ value, stopped = some (.put key value) ∧ clobber store stopped key = some value) ∨
      ((∀ value, stopped ≠ some (.put key value)) ∧
        clobber store stopped key = store key) := by
  match stopped with
  | none | some (.take _) => simp [clobber]
  | some (.put clashing value) =>
      by_cases hkey : key = clashing
      · exact .inl ⟨value, by simp [hkey, clobber]⟩
      · exact .inr (by simp [clobber, hkey, Ne.symm hkey])

theorem clobber_congr {store store' : K → Option V} {stopped : Option (Op K V)}
    (heq : store key = store' key) :
    clobber store stopped key = clobber store' stopped key := by
  match stopped with
  | none | some (.take _) => exact heq
  | some (.put clashing value) => by_cases hkey : key = clashing <;> simp [clobber, hkey, heq]

theorem recovered_of_touched {store : K → Option V} {done : List (Op K V)}
    {stopped : Option (Op K V)} (hruns : Runs store done) (hmem : key ∈ done.map Op.key) :
    recovered store done stopped key = (retaken done key).or (store key) := by
  rw [← rollback_run hruns key]
  exact rollback_of_mem (mem_journal_of_runs hruns hmem)

theorem recovered_of_untouched {store : K → Option V} {done : List (Op K V)}
    {stopped : Option (Op K V)} (hnot : key ∉ done.map Op.key) :
    recovered store done stopped key = clobber store stopped key := by
  have ⟨hcreated, hspent⟩ :
      key ∉ puts done ∧ key ∉ (taken store done).map Prod.fst := notMem_journal hnot
  rw [recovered, rollback_of_notMem hcreated hspent]
  exact clobber_congr (applyAll_of_notMem hnot)

/-- Rolling back restores the store exactly when every value that the run put
and took again is what the store held before, and so is a clashing put's value
under a key the run had not touched. -/
theorem recovered_eq_iff {store : K → Option V} {done : List (Op K V)}
    {stopped : Option (Op K V)} (hruns : Runs store done) :
    recovered store done stopped = store ↔
      (∀ key value, retaken done key = some value → store key = some value) ∧
      (∀ key value, stopped = some (.put key value) → key ∉ done.map Op.key →
        store key = some value) := by
  constructor
  · intro heq
    refine ⟨?_, ?_⟩
    · intro key value hretaken
      have hmem : key ∈ done.map Op.key := List.mem_map_of_mem (mem_of_retaken hretaken).2
      rw [← heq, recovered_of_touched hruns hmem, hretaken, Option.some_or]
    · intro key value hstopped hnot
      rw [← heq, recovered_of_untouched hnot, hstopped]
      simp [clobber]
  · rintro ⟨hretaken, hclash⟩
    funext key
    by_cases hmem : key ∈ done.map Op.key
    · rw [recovered_of_touched hruns hmem]
      cases hown : retaken done key with
      | none => simp
      | some value => simp [hretaken key value hown]
    · rw [recovered_of_untouched hmem]
      rcases clobber_apply store stopped key with ⟨value, hput, hvalue⟩ | ⟨-, hsame⟩
      · rw [hvalue, hclash key value hput hmem]
      · exact hsame

end Journal
