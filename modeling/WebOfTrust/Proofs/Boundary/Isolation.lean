import Mathlib
import WebOfTrust.Proofs.Boundary.Respond

/-!
# Contexts behind handles are isolated

From its init to its deinit a handle serves a context of its own: whatever calls on other handles
come in between, its answers are those of a context that is asked for its own calls alone. A handle
that is null, foreign, not yet lent or released answers every call with its value for failure. No
slot is lent twice, so a released handle fails for good; in a program whose addresses come back that
holds as long as no context is made after the release.

* `requests`: what a history asks of the context of a handle;
* `Host.Serves`, `Host.Gone`: a handle that holds a context, and one that never will again;
* `Host.Serves.respond`, `Host.Serves.call_of_ne`, `Host.Gone.step`: what a call makes of them;
* `Host.before`: the host at a place of a history;
* `Host.Lends.answer_eq`, `Host.answer_of_empty`: what it answers there;
* `Host.exists_lends`: a slot in use was lent before;
* **`Host.isolated`**: the answers at all places of a history.
-/

namespace WebOfTrust

variable {α : Type}

/-- The operations that a history asks for on a handle, each after a look at the wall clock. -/
def requests (handle : Handle) (history : List (Instant × Call α)) : List (Operation α) :=
  history.flatMap fun entry =>
    if entry.2.handle? = some handle then .tick entry.1 :: entry.2.operation?.toList else []

variable [Arith α] [Logarithm α] [WordForm α] [Literal α] {handle : Handle} {own : Context α}
  {call : Call α} {t : Instant} {rest : List (Instant × Call α)}

omit [Literal α] in
theorem run_requests_cons (hcall : call.handle? = some handle) :
    (own.run (requests handle ((t, call) :: rest))).2 =
      (((own.tick t).respond call).2.run (requests handle rest)).2 := by
  have hhead : requests handle ((t, call) :: rest) =
      (.tick t :: call.operation?.toList) ++ requests handle rest := by
    rw [requests, List.flatMap_cons, if_pos hcall]
    rfl
  rw [hhead, Context.respond]
  cases call.operation? <;> rfl

omit [Arith α] [Logarithm α] [WordForm α] [Literal α] in
theorem requests_cons_of_ne (hcall : call.handle? ≠ some handle) :
    requests handle ((t, call) :: rest) = requests handle rest := by
  rw [requests, List.flatMap_cons, if_neg hcall]
  rfl

namespace Host

variable {h : Host α} {history : List (Instant × Call α)}

/-! ## What a call does to the slots -/

/-- **What a call can do**: lend a context, replace the one of its handle, or nothing. -/
theorem call_cases (h : Host α) (call : Call α) :
    (∃ text reading, call = .init text reading ∧
      (h.call call).2 = (h.lend (.ofConfig h.prefer (Config.readOrDefault text) reading)).2) ∨
    (∃ handle c c', call.handle? = some handle ∧ h.context? handle = some c ∧
      (h.call call).2 = h.replace handle c') ∨
    (∃ handle, call.handle? = some handle ∧ h.context? handle = none ∧ (h.call call).2 = h) := by
  cases hcall : call.handle? with
  | none =>
    cases call with
    | init text reading => exact .inl ⟨text, reading, rfl, by rw [call_init]⟩
    | _ => cases hcall
  | some handle =>
    cases hc : h.context? handle with
    | none => exact .inr (.inr ⟨handle, rfl, hc, by rw [call_of_dead hc hcall]⟩)
    | some c =>
      refine .inr (.inl ⟨handle, c, ?_⟩)
      by_cases hkeep : call = .deinit handle
      · exact ⟨none, rfl, hc, by rw [hkeep, call_deinit hc]⟩
      · exact ⟨_, rfl, hc, by rw [call_of_live hc hcall hkeep]⟩

omit [Arith α] [Logarithm α] [WordForm α] [Literal α] in
theorem length_replace (h : Host α) (handle : Handle) (c : Option (Context α)) :
    (h.replace handle c).slots.length = h.slots.length := by
  cases handle with
  | slot n => exact List.length_set
  | _ => rfl

theorem length_le_call (h : Host α) (call : Call α) :
    h.slots.length ≤ (h.call call).2.slots.length := by
  rcases call_cases h call with ⟨_, _, -, h'⟩ | ⟨_, _, _, -, -, h'⟩ | ⟨_, -, -, h'⟩
  · rw [h']
    simp [lend]
  · rw [h', length_replace]
  · rw [h']

theorem context?_call_of_ne (hcall : call.handle? ≠ some handle)
    (hold : handle ≠ .slot h.slots.length) :
    (h.call call).2.context? handle = h.context? handle := by
  rcases call_cases h call with ⟨_, _, -, h'⟩ | ⟨other, _, _, hother, hc, h'⟩ | ⟨_, -, -, h'⟩
  · -- A new context goes into the next slot, which no old handle names.
    rw [h', context?_lend, if_neg hold]
  · rw [h', context?_replace hc, if_neg]
    rintro rfl
    exact hcall hother
  · rw [h']

omit [Arith α] [Logarithm α] [WordForm α] [Literal α] in
@[simp] theorem prefer_replace (h : Host α) (handle : Handle) (c : Option (Context α)) :
    (h.replace handle c).prefer = h.prefer := by
  cases handle <;> rfl

theorem prefer_call (h : Host α) (call : Call α) : (h.call call).2.prefer = h.prefer := by
  rcases call_cases h call with ⟨_, _, -, h'⟩ | ⟨_, _, _, -, -, h'⟩ | ⟨_, -, -, h'⟩
  · rw [h']
    rfl
  · rw [h', prefer_replace]
  · rw [h']

theorem prefer_calls (h : Host α) (history : List (Instant × Call α)) :
    (h.calls history).2.prefer = h.prefer := by
  induction history generalizing h with
  | nil => rfl
  | cons entry rest ih => exact (ih _).trans (prefer_call _ entry.2)

/-! ## Handles that serve -/

/-- A handle holds a context, at whatever time the wall clock may show. -/
def Serves (h : Host α) (handle : Handle) (own : Context α) : Prop :=
  ∀ t, (h.refresh t).context? handle = some (own.tick t)

theorem Serves.respond (hs : h.Serves handle own) (hcall : call.handle? = some handle)
    (hkeep : call ≠ .deinit handle) (t : Instant) :
    ((h.refresh t).call call).1 = ((own.tick t).respond call).1 ∧
      ((h.refresh t).call call).2.Serves handle ((own.tick t).respond call).2 := by
  rw [call_of_live (hs t) hcall hkeep]
  refine ⟨rfl, fun t' => ?_⟩
  rw [context?_refresh, context?_replace (hs t), if_pos rfl]
  rfl

theorem Serves.call_of_ne (hs : h.Serves handle own) (hcall : call.handle? ≠ some handle)
    (t : Instant) : ((h.refresh t).call call).2.Serves handle own := by
  intro t'
  have hold : handle ≠ .slot (h.refresh t).slots.length := by
    obtain ⟨n, rfl, hn⟩ := exists_slot (hs t)
    have hlt := (List.getElem?_eq_some_iff.mp hn).1
    rw [ne_eq, Handle.slot.injEq]
    exact hlt.ne
  rw [context?_refresh, context?_call_of_ne hcall hold, hs t, Option.map_some, Context.tick_tick]

/-- **A handle keeps serving a context of its own** while it is not released. -/
theorem Serves.calls (hs : h.Serves handle own) (hkeep : ∀ t, (t, .deinit handle) ∉ history) :
    (h.calls history).2.Serves handle (own.run (requests handle history)).2 := by
  induction history generalizing h own with
  | nil => exact hs
  | cons entry rest ih =>
    obtain ⟨t, call⟩ := entry
    have hrest : ∀ t, (t, .deinit handle) ∉ rest := fun t ht => hkeep t (List.mem_cons_of_mem _ ht)
    by_cases hcall : call.handle? = some handle
    · have hfirst : call ≠ .deinit handle := by
        rintro rfl
        exact hkeep t List.mem_cons_self
      rw [run_requests_cons hcall]
      exact ih (hs.respond hcall hfirst t).2 hrest
    · rw [requests_cons_of_ne hcall]
      exact ih (hs.call_of_ne hcall t) hrest

/-! ## Handles that are gone -/

/-- A handle that the host will not hand out any more. -/
def Past (h : Host α) (handle : Handle) : Prop := ∀ n, handle = .slot n → n < h.slots.length

/-- A handle without a context, and for good. -/
structure Gone (h : Host α) (handle : Handle) : Prop where
  past : h.Past handle
  dead : h.context? handle = none

omit [Arith α] [Logarithm α] [WordForm α] [Literal α] in
theorem length_refresh (h : Host α) (t : Instant) : (h.refresh t).slots.length = h.slots.length :=
  List.length_map ..

theorem Past.step (hp : h.Past handle) (t : Instant) (call : Call α) :
    ((h.refresh t).call call).2.Past handle := fun n hn =>
  (hp n hn).trans_le ((length_refresh h t).ge.trans (length_le_call _ call))

theorem Gone.step (hg : h.Gone handle) (t : Instant) (call : Call α) :
    ((h.refresh t).call call).2.Gone handle := by
  refine ⟨hg.past.step t call, ?_⟩
  have hnone : (h.refresh t).context? handle = none := by
    rw [context?_refresh, hg.dead]
    rfl
  by_cases hcall : call.handle? = some handle
  · rw [call_of_dead hnone hcall]
    exact hnone
  · rw [context?_call_of_ne hcall, hnone]
    intro hnew
    have hlt := hg.past _ hnew
    rw [length_refresh] at hlt
    exact lt_irrefl _ hlt

theorem Past.gone_of_deinit (hp : h.Past handle) (t : Instant) :
    ((h.refresh t).call (.deinit handle)).2.Gone handle := by
  refine ⟨hp.step t _, ?_⟩
  cases hc : (h.refresh t).context? handle with
  | none => rw [call_of_dead hc rfl, hc]
  | some c => rw [call_deinit hc, context?_replace hc, if_pos rfl]

/-! ## Histories -/

theorem calls_append_snd (l l' : List (Instant × Call α)) :
    (h.calls (l ++ l')).2 = ((h.calls l).2.calls l').2 := by
  induction l generalizing h with
  | nil => rfl
  | cons entry rest ih => exact ih

theorem calls_getElem? {j : ℕ} (hj : history[j]? = some (t, call)) :
    (h.calls history).1[j]? =
      some (((h.calls (history.take j)).2.refresh t).call call).1 := by
  induction history generalizing h j with
  | nil => simp at hj
  | cons entry rest ih =>
    cases j with
    | zero =>
      obtain rfl : entry = (t, call) := by simpa using hj
      rfl
    | succ j => exact ih hj

section Places

variable (prefer : Identity → NodeId) (history : List (Instant × Call α))

/-- The host before a place of a history. -/
def before (j : ℕ) : Host α := ((empty prefer).calls (history.take j)).2

/-- At a place of a history a handle is handed out, to a context of its own. -/
def Lends (i : ℕ) (handle : Handle) (own : Context α) : Prop :=
  ∃ t text reading, history[i]? = some (t, .init text reading) ∧
    ((empty prefer).calls history).1[i]? = some (.handle handle) ∧
    own = .ofConfig prefer (Config.readOrDefault text) reading

/-- At a place of a history a handle is released. -/
def Releases (k : ℕ) (handle : Handle) : Prop := ∃ t, history[k]? = some (t, .deinit handle)

end Places

variable {prefer : Identity → NodeId} {i j : ℕ}

theorem before_succ (hj : history[j]? = some (t, call)) :
    before prefer history (j + 1) = (((before prefer history j).refresh t).call call).2 := by
  rw [before, List.take_add_one, hj, Option.toList_some, calls_append_snd]
  rfl

theorem before_succ_of_none (hj : history[j]? = none) :
    before prefer history (j + 1) = before prefer history j := by
  rw [before, List.take_add_one, hj, Option.toList_none, List.append_nil, ← before]

theorem before_induct {P : Host α → Prop}
    (hP : ∀ h t call, P h → P ((h.refresh t).call call).2) (hij : i ≤ j)
    (hi : P (before prefer history i)) : P (before prefer history j) := by
  induction j, hij using Nat.le_induction with
  | base => exact hi
  | succ j hij ih =>
    cases hj : history[j]? with
    | none => rwa [before_succ_of_none hj]
    | some entry =>
      rw [before_succ hj]
      exact hP _ _ _ ih

variable (prefer) in
theorem lends_of_init {text : Option String} {reading : Instant}
    (hi : history[i]? = some (t, .init text reading)) :
    let h := (before prefer history i).refresh t
    let own : Context α := .ofConfig prefer (Config.readOrDefault text) reading
    Lends prefer history i (.slot h.slots.length) own ∧
      before prefer history (i + 1) = (h.lend own).2 := by
  intro h own
  have hprefer : h.prefer = prefer := prefer_calls _ _
  have hcall := call_init (h := h) text reading
  rw [hprefer] at hcall
  have hanswer : ((empty prefer).calls history).1[i]? = some (h.call (.init text reading)).1 :=
    calls_getElem? hi
  rw [hcall] at hanswer
  exact ⟨⟨t, text, reading, hi, hanswer, rfl⟩, (before_succ hi).trans (congrArg Prod.snd hcall)⟩

theorem Lends.serves (hi : Lends prefer history i handle own) :
    (before prefer history (i + 1)).Serves handle own ∧
      (before prefer history (i + 1)).Past handle := by
  obtain ⟨t, text, reading, hinit, hanswer, rfl⟩ := hi
  obtain ⟨⟨_, _, _, -, hslot, -⟩, hlent⟩ := lends_of_init prefer hinit
  obtain rfl := Answer.handle.inj (Option.some.inj (hanswer.symm.trans hslot))
  rw [hlent]
  constructor
  · intro t'
    rw [context?_refresh, context?_lend, if_pos rfl]
    rfl
  · rintro n ⟨⟩
    simp [lend]

theorem Lends.serves_at (hi : Lends prefer history i handle own) (hij : i < j)
    (hkeep : ∀ k, i < k → k < j → ¬ Releases history k handle) :
    (before prefer history j).Serves handle
      (own.run (requests handle ((history.take j).drop (i + 1)))).2 := by
  have hsplit : history.take j = history.take (i + 1) ++ (history.take j).drop (i + 1) := by
    have := List.take_append_drop (i + 1) (history.take j)
    rwa [List.take_take, min_eq_left hij, eq_comm] at this
  have hnone : ∀ t, (t, .deinit handle) ∉ (history.take j).drop (i + 1) := by
    intro t ht
    obtain ⟨m, hm⟩ := List.mem_iff_getElem?.mp ht
    rw [List.getElem?_drop, List.getElem?_take] at hm
    split_ifs at hm with hmj
    exact hkeep (i + 1 + m) (by omega) hmj ⟨t, hm⟩
  have hserves := hi.serves.1.calls hnone
  rwa [before, ← calls_append_snd, ← hsplit] at hserves

theorem answer_before (hj : history[j]? = some (t, call)) :
    ((empty prefer).calls history).1[j]? =
      some (((before prefer history j).refresh t).call call).1 := calls_getElem? hj

theorem Lends.answer_eq (hi : Lends prefer history i handle own) (hij : i < j)
    (hkeep : ∀ k, i < k → k < j → ¬ Releases history k handle)
    (hj : history[j]? = some (t, call)) (hcall : call.handle? = some handle) :
    ((empty prefer).calls history).1[j]? = some (((own.run
      (requests handle ((history.take j).drop (i + 1)))).2.tick t).respond call).1 := by
  have hserves := hi.serves_at hij hkeep
  rw [answer_before hj]
  by_cases hdeinit : call = .deinit handle
  · rw [hdeinit, call_deinit (hserves t)]
    rfl
  · rw [(hserves.respond hcall hdeinit t).1]

theorem answer_of_empty (hj : history[j]? = some (t, call)) (hcall : call.handle? = some handle)
    (hempty : (before prefer history j).context? handle = none) :
    ((empty prefer).calls history).1[j]? = some call.failure ∧
      before prefer history (j + 1) = (before prefer history j).refresh t := by
  have hnone : ((before prefer history j).refresh t).context? handle = none := by
    rw [context?_refresh, hempty]
    rfl
  rw [answer_before hj, before_succ hj, call_of_dead hnone hcall]
  exact ⟨rfl, rfl⟩

/-! ## Handles that are not lent or released -/

/-- A slot in use was lent before. -/
theorem exists_lends {n : ℕ} (hn : n < (before prefer history j).slots.length) :
    ∃ i own, i < j ∧ Lends prefer history i (.slot n) own := by
  induction j with
  | zero => simp [before, calls, empty] at hn
  | succ j ih =>
    by_cases hold : n < (before prefer history j).slots.length
    · obtain ⟨i, own, hi, hlends⟩ := ih hold
      exact ⟨i, own, hi.trans j.lt_succ_self, hlends⟩
    -- A slot that was not in use one call before was lent by that call.
    cases hj : history[j]? with
    | none =>
      rw [before_succ_of_none hj] at hn
      exact absurd hn hold
    | some entry =>
      obtain ⟨t, call⟩ := entry
      rw [← length_refresh _ t] at hold
      rw [before_succ hj] at hn
      rcases call_cases ((before prefer history j).refresh t) call with
        ⟨text, reading, rfl, h'⟩ | ⟨_, _, _, -, -, h'⟩ | ⟨_, -, -, h'⟩
      · rw [h', lend, List.length_append, List.length_singleton] at hn
        obtain rfl := Nat.eq_of_lt_succ_of_not_lt hn hold
        exact ⟨j, _, j.lt_succ_self, (lends_of_init prefer hj).1⟩
      · rw [h', length_replace] at hn
        exact absurd hn hold
      · rw [h'] at hn
        exact absurd hn hold

theorem context?_of_not_lent (h : ∀ i own, i < j → ¬ Lends prefer history i handle own) :
    (before prefer history j).context? handle = none := by
  cases hc : (before prefer history j).context? handle with
  | none => rfl
  | some c =>
    obtain ⟨n, rfl, hn⟩ := exists_slot hc
    obtain ⟨i, own, hij, hi⟩ := exists_lends (List.getElem?_eq_some_iff.mp hn).1
    exact absurd hi (h i own hij)

theorem context?_of_released {k : ℕ} (hi : Lends prefer history i handle own) (hik : i < k)
    (hkj : k < j) (hk : Releases history k handle) :
    (before prefer history j).context? handle = none := by
  obtain ⟨t, hk⟩ := hk
  have hpast : (before prefer history k).Past handle :=
    before_induct (P := (·.Past handle)) (fun _ t call hp => hp.step t call) hik hi.serves.2
  have hgone : (before prefer history (k + 1)).Gone handle := by
    rw [before_succ hk]
    exact hpast.gone_of_deinit t
  exact (before_induct (P := (·.Gone handle)) (fun _ t call hg => hg.step t call) hkj hgone).dead

/-! ## Isolation -/

/-- **Contexts behind handles are isolated** until they are released, and all other handles fail. A
slot is never lent again, while an address of a program may come back with another context. -/
theorem isolated (prefer : Identity → NodeId) (history : List (Instant × Call α)) :
    let answers := ((empty prefer).calls history).1
    let host (j : ℕ) := ((empty prefer).calls (history.take j)).2
    (∀ i t text reading, history[i]? = some (t, .init text reading) →
      ∃ handle, Lends prefer history i handle
        (.ofConfig prefer (Config.readOrDefault text) reading)) ∧
    ∀ j t call handle, history[j]? = some (t, call) → call.handle? = some handle →
      (∀ i own, Lends prefer history i handle own → i < j →
        (∀ k, i < k → k < j → ¬ Releases history k handle) →
        answers[j]? = some (((own.run
          (requests handle ((history.take j).drop (i + 1)))).2.tick t).respond call).1) ∧
      ((handle = .null ∨ handle = .foreign ∨
          (∀ i own, i < j → ¬ Lends prefer history i handle own) ∨
          ∃ i k own, Lends prefer history i handle own ∧ i < k ∧ k < j ∧
            Releases history k handle) →
        answers[j]? = some call.failure ∧ host (j + 1) = (host j).refresh t) := by
  intro answers host
  refine ⟨fun i t text reading hi => ⟨_, (lends_of_init prefer hi).1⟩,
    fun j t call handle hj hcall => ⟨fun i own hi hij hkeep => hi.answer_eq hij hkeep hj hcall,
      fun hdead => answer_of_empty hj hcall ?_⟩⟩
  rcases hdead with rfl | rfl | hnever | ⟨i, k, own, hi, hik, hkj, hk⟩
  · rfl
  · rfl
  · exact context?_of_not_lent hnever
  · exact context?_of_released hi hik hkj hk

section Interleaved

/-- Two handles in turn, the second with a text of settings that cannot be used; it is released
early. A third one is used before it is lent. -/
def interleaved : List (Instant × Call Float) :=
  [(0, .init none 0),
    (0, .init (some "[betrayal]\nbp_max_iterations = 0\n") 0),
    (1, .addEdge (.slot 0) (some ⟨1, 2, 1, 10, 0, 3, 100⟩)),
    (2, .addEdge (.slot 1) (some ⟨1, 2, -1, 50, 0, 3, 60⟩)),
    (3, .deinit (.slot 1)),
    (4, .revokeEdge (.slot 0) ⟨1, 2⟩),
    (5, .reputation (.slot 1) 2),
    (6, .advance (.slot 2) 7)]

/-- The second handle gets default settings and fails once released; one that is not lent fails. -/
theorem isolated_interleaved :
    let lends := Lends Identity.preferred interleaved
    let answers := ((empty Identity.preferred).calls interleaved).1
    lends 1 (.slot 1) (.ofConfig Identity.preferred Config.default 0) ∧
    (∃ own, lends 0 (.slot 0) own ∧ answers[5]? =
      some (((own.run (requests (.slot 0) ((interleaved.take 5).drop 1))).2.tick 4).respond
        (.revokeEdge (.slot 0) ⟨1, 2⟩)).1) ∧
    (Releases interleaved 4 (.slot 1) ∧ answers[6]? = some (.score (-1))) ∧
    answers[7]? = some (.code (-1)) := by
  intro lends answers
  have hfirst : lends 0 (.slot 0)
      (.ofConfig Identity.preferred (Config.readOrDefault none) 0) := ⟨0, _, 0, rfl, rfl, rfl⟩
  have hdefault : Config.readOrDefault (some "[betrayal]\nbp_max_iterations = 0\n") =
      (Config.default : Config Float) := by decide +kernel
  have hsecond : lends 1 (.slot 1) (.ofConfig Identity.preferred Config.default 0) :=
    ⟨0, _, 0, rfl, rfl, by rw [hdefault]⟩
  have hreleased : Releases interleaved 4 (.slot 1) := ⟨3, rfl⟩
  have hkeep : ∀ k, 0 < k → k < 5 → ¬ Releases interleaved k (.slot 0) := by
    rintro k hk hk' ⟨t, ht⟩
    interval_cases k <;> simp [interleaved] at ht
  obtain ⟨-, hanswers⟩ := isolated Identity.preferred interleaved
  have hlive := (hanswers 5 4 (.revokeEdge (.slot 0) ⟨1, 2⟩) (.slot 0) rfl rfl).1
  have hdead := (hanswers 6 5 (.reputation (.slot 1) 2) (.slot 1) rfl rfl).2
  have hnever := (hanswers 7 6 (.advance (.slot 2) 7) (.slot 2) rfl rfl).2
  refine ⟨hsecond, ⟨_, hfirst, hlive 0 _ hfirst (by decide) hkeep⟩, ⟨hreleased, ?_⟩, ?_⟩
  · exact (hdead (.inr (.inr (.inr ⟨1, 4, _, hsecond, by decide, by decide, hreleased⟩)))).1
  · refine (hnever (.inr (.inr (.inl ?_)))).1
    rintro i own hi ⟨t, text, reading, hinit, hanswer, -⟩
    interval_cases i
    · cases hanswer
    · cases hanswer
    all_goals cases hinit

end Interleaved

end Host

end WebOfTrust
