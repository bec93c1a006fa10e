import CortexFlow.ButtonPipeline.Signals

namespace CortexFlow

namespace ButtonPipeline

-- The three flows, the debounced level, since when the timers have been armed, and
-- the signals that are on their way or have been dispatched.
structure Pipeline where
  debouncer : Debouncer.State
  classifier : ClickClassifier.State
  ui : UiController.State
  level : Bool
  timers : Place → Option Int
  coming : List Signal
  heard : List Signal
  draining : Bool
  stopping : Bool
  now : Int

namespace Pipeline

-- A pipeline that has just been started.
structure Fresh (g : Pipeline) : Prop where
  debouncer : g.debouncer = .Settled
  classifier : g.classifier = .Idle
  ui : g.ui = .Idle
  level : g.level = false
  timers : ∀ place, g.timers place = none
  coming : g.coming = []
  heard : g.heard = []

def post (g : Pipeline) (signals : List Signal) : Pipeline :=
  { g with coming := g.coming ++ if g.stopping then [] else signals }

-- The classifier makes a transition.
def move (g : Pipeline) : Option ClickClassifier.State → Pipeline
  | none => g
  | some next =>
      { g with
        classifier := next
        timers := fun place =>
          if next.place = some place then some g.now
          else if g.classifier.place = some place then none
          else g.timers place }

-- `Debouncer` is told of the contact.
def sample (g : Pipeline) (pressed : Bool) : Pipeline :=
  if g.debouncer = .Settled ∧ pressed ≠ g.level then
    { g with
      debouncer := .CoolingDown
      level := pressed
      timers := Function.update g.timers .timer (some g.now) }.post [.edge pressed]
  else g

def receive (g : Pipeline) : Signal → Pipeline
  | .expired .timer =>
      if g.debouncer = .CoolingDown then
        { g with debouncer := .Settled, timers := Function.update g.timers .timer none }
      else g
  | .gesture made => { g with ui := g.ui.next made }
  | signal =>
      (g.post ((g.classifier.sends signal).map .gesture)).move (g.classifier.next signal)

-- The signal is dispatched.
def take (g : Pipeline) (signal : Signal) (rest : List Signal) : Pipeline :=
  { g with coming := rest, heard := g.heard ++ [signal], draining := true }

inductive Step (g : Pipeline) : Pipeline → Prop
  | tick (now : Int) : g.now ≤ now → Step g { g with now := now }
  | rest : g.coming = [] → Step g { g with draining := false }
  | stop (coming : List Signal) : coming <+: g.coming →
      Step g { g with coming := coming, stopping := true }
  | fire (fired : List Place) : g.draining = false → fired.Nodup →
      (∀ place ∈ fired, ∃ since, g.timers place = some since ∧ place.Lapsed since g.now) →
      Step g (post { g with
        timers := fun place => if place ∈ fired then none else g.timers place }
          (fired.map .expired))
  | sample (pressed : Bool) : Step g (sample { g with draining := true } pressed)
  | deliver (signal : Signal) (rest : List Signal) : g.coming = signal :: rest →
      Step g ((g.take signal rest).receive signal)

-- The state that a flow is in has a timer in its Locals at the place.
def arms (g : Pipeline) (place : Place) : Bool :=
  (place = .timer && g.debouncer = .CoolingDown) || g.classifier.place = some place

-- A timer that has not gone off, or the message that it has brought.
def tokens (g : Pipeline) (place : Place) : Nat :=
  (g.timers place).toList.length + g.coming.count (.expired place)

-- The messages of timers are dispatched before all others.
def Ordered (g : Pipeline) : Prop :=
  g.coming.Pairwise fun former latter => latter.isExpired = true → former.isExpired = true

structure Sound (g : Pipeline) : Prop where
  tokens_le : ∀ place, g.tokens place ≤ (g.arms place).toNat
  le_tokens : g.stopping = false → ∀ place, (g.arms place).toNat ≤ g.tokens place
  ordered : g.Ordered
  resting : g.draining = false → ∀ signal ∈ g.coming, signal.isExpired = true
  alternate : (false :: edges (g.heard ++ g.coming)).IsChain (· ≠ ·)
  level : g.stopping = false → (edges (g.heard ++ g.coming)).getLastD false = g.level
  tracks : ∀ value, g.classifier.level = some value → (edges g.heard).getLastD false = value
  accounted_le : accounted (g.heard ++ g.coming) + g.classifier.owed ≤ (edges g.heard).count true
  le_accounted : g.stopping = false →
    (edges g.heard).count true ≤ accounted (g.heard ++ g.coming) + g.classifier.owed
  ui : g.ui = (gestures g.heard).foldl UiController.State.next .Idle

theorem sound_fresh {g : Pipeline} (h : Fresh g) : Sound g := by
  obtain ⟨hdebouncer, hclassifier, hui, hlevel, htimers, hcoming, hheard⟩ := h
  have htokens (place : Place) : g.tokens place = 0 := by simp [tokens, htimers, hcoming]
  have harms (place : Place) : g.arms place = false := by
    simp [arms, hdebouncer, hclassifier, ClickClassifier.State.place]
  have hnone : g.classifier.level = none := by rw [hclassifier]; rfl
  have howed : g.classifier.owed = 0 := by rw [hclassifier]; rfl
  constructor <;>
    simp [Ordered, htokens, harms, hcoming, hheard, hlevel, hui, hnone, howed, edges, gestures,
      accounted]

variable {g : Pipeline}

theorem Sound.tick (h : Sound g) (now : Int) : Sound { g with now := now } := { h with }

theorem Sound.rest (h : Sound g) (hc : g.coming = []) : Sound { g with draining := false } :=
  { h with resting := fun _ _ hs => absurd (hc ▸ hs) List.not_mem_nil }

theorem Sound.stop (h : Sound g) {coming : List Signal} (hc : coming <+: g.coming) :
    Sound { g with coming := coming, stopping := true } where
  tokens_le place :=
    le_trans (Nat.add_le_add_left (hc.sublist.count_le _) _) (h.tokens_le place)
  le_tokens := nofun
  ordered := h.ordered.sublist hc.sublist
  resting hd signal hs := h.resting hd signal (hc.subset hs)
  alternate :=
    h.alternate.prefix ((List.prefix_cons_inj _).mpr
      (((List.prefix_append_right_inj _).mpr hc).filterMap _))
  level := nofun
  tracks := h.tracks
  accounted_le :=
    le_trans (Nat.add_le_add_right (accounted_sublist (hc.sublist.append_left _)) _) h.accounted_le
  le_accounted := nofun
  ui := h.ui

-- Each timer that goes off brings its message, unless there is nobody to post it to.
theorem tokens_fire {fired : List Place} (hf : fired.Nodup)
    (hsince : ∀ place ∈ fired, ∃ since, g.timers place = some since) (place : Place) :
    (post { g with timers := fun place => if place ∈ fired then none else g.timers place }
      (fired.map .expired)).tokens place ≤ g.tokens place ∧
    (g.stopping = false →
      (post { g with timers := fun place => if place ∈ fired then none else g.timers place }
        (fired.map .expired)).tokens place = g.tokens place) := by
  have hcount : (fired.map Signal.expired).count (.expired place) = fired.count place :=
    List.count_map_of_injective fired _ (fun _ _ => Signal.expired.inj) place
  by_cases hmem : place ∈ fired
  · obtain ⟨since, hs⟩ := hsince place hmem
    have hone : fired.count place = 1 := List.count_eq_one_of_mem hf hmem
    cases hstop : g.stopping <;> simp [tokens, post, hmem, hs, hcount, hone, Nat.add_comm]
  · have hzero : fired.count place = 0 := List.count_eq_zero_of_not_mem hmem
    cases hstop : g.stopping <;> simp [tokens, post, hmem, hcount, hzero]

theorem Sound.fire (h : Sound g) {fired : List Place} (hd : g.draining = false)
    (hf : fired.Nodup) (hsince : ∀ place ∈ fired, ∃ since, g.timers place = some since) :
    Sound (post { g with
      timers := fun place => if place ∈ fired then none else g.timers place }
        (fired.map .expired)) := by
  have hall : ∀ signal ∈ g.coming ++ (if g.stopping then [] else fired.map .expired),
      signal.isExpired = true := by
    intro signal hs
    cases List.mem_append.mp hs with
    | inl hold => exact h.resting hd signal hold
    | inr hnew =>
        split at hnew
        · exact absurd hnew List.not_mem_nil
        · obtain ⟨place, _, rfl⟩ := List.mem_map.mp hnew
          rfl
  have hedges : edges (if g.stopping then [] else fired.map .expired) = [] := by
    split
    · rfl
    · exact edges_expired fired
  have haccounted : accounted (if g.stopping then [] else fired.map .expired) = 0 := by
    split
    · rfl
    · exact accounted_expired fired
  constructor
  · exact fun place => le_trans (tokens_fire hf hsince place).1 (h.tokens_le place)
  · exact fun hstop place =>
      le_of_le_of_eq (h.le_tokens hstop place) ((tokens_fire hf hsince place).2 hstop).symm
  · exact List.pairwise_of_forall_mem_list fun former hmem _ _ _ => hall former hmem
  · exact fun _ => hall
  · have := h.alternate
    simpa [post, hedges] using this
  · have := h.level
    simpa [post, hedges] using this
  · exact h.tracks
  · have := h.accounted_le
    simpa [post, haccounted] using this
  · have := h.le_accounted
    simpa [post, haccounted] using this
  · exact h.ui

theorem getLastD_concat (values : List Bool) (value last : Bool) :
    (values ++ [value]).getLastD last = value := by
  simp [List.getLastD_eq_getLast?]

-- An edge that differs from the one before it keeps them in turns.
theorem alternate_concat {values : List Bool} {value : Bool}
    (h : (false :: values).IsChain (· ≠ ·)) (hv : value ≠ values.getLastD false) :
    (false :: (values ++ [value])).IsChain (· ≠ ·) := by
  rw [← List.cons_append]
  refine List.isChain_append.mpr ⟨h, .singleton _, fun x hx y hy => ?_⟩
  obtain rfl := Option.some.inj hy
  rw [List.getLast?_cons] at hx
  obtain rfl := Option.some.inj hx
  rw [← List.getLastD_eq_getLast?]
  exact hv.symm

theorem Sound.drain (h : Sound g) : Sound { g with draining := true } :=
  { h with resting := nofun }

theorem tokens_post {signals : List Signal} (h : ∀ signal ∈ signals, signal.isExpired = false)
    (place : Place) : (g.post signals).tokens place = g.tokens place := by
  have hcount : signals.count (.expired place) = 0 :=
    List.count_eq_zero_of_not_mem fun hmem => nomatch h _ hmem
  cases hstop : g.stopping <;> simp [tokens, post, hstop, hcount]

-- Posts that bring no expiries keep what is on its way in order.
theorem ordered_post {signals : List Signal} (h : g.Ordered)
    (hs : ∀ signal ∈ signals, signal.isExpired = false) :
    (g.post signals).Ordered := by
  refine List.pairwise_append.mpr ⟨h, ?_, fun former _ latter hl he => ?_⟩
  · split
    · exact .nil
    · exact List.pairwise_of_forall_mem_list fun _ _ latter hl he =>
        nomatch (hs latter hl).symm.trans he
  · split at hl
    · exact absurd hl List.not_mem_nil
    · exact nomatch (hs latter hl).symm.trans he

theorem place_ne_sub (tag : ClickClassifier.State) : tag.place ≠ some .sub := by
  cases tag <;> nofun

theorem place_ne_timer (tag : ClickClassifier.State) : tag.place ≠ some .timer := by
  cases tag <;> nofun

theorem Sound.commit (h : Sound g) (hd : g.draining = true) (hs : g.debouncer = .Settled)
    {pressed : Bool} (hp : pressed ≠ g.level) :
    Sound ({ g with
      debouncer := .CoolingDown
      level := pressed
      timers := Function.update g.timers .timer (some g.now) }.post [.edge pressed]) := by
  have hnone : ∀ signal ∈ [Signal.edge pressed], signal.isExpired = false := by
    simp [Signal.isExpired]
  have hzero : g.tokens .timer = 0 := by
    have := h.tokens_le .timer
    simpa [arms, hs, place_ne_timer] using this
  let cooling : Pipeline := { g with
    debouncer := .CoolingDown
    level := pressed
    timers := Function.update g.timers .timer (some g.now) }
  have htokens (place : Place) : (cooling.post [.edge pressed]).tokens place =
      if place = .timer then 1 else g.tokens place := by
    rw [tokens_post hnone]
    by_cases hplace : place = .timer
    · have hcount : g.coming.count (.expired .timer) = 0 := (Nat.add_eq_zero_iff.mp hzero).2
      simp [tokens, cooling, hplace, hcount]
    · simp [tokens, cooling, hplace]
  have harms (place : Place) : (cooling.post [.edge pressed]).arms place =
      if place = .timer then true else g.arms place := by
    by_cases hplace : place = .timer
    · simp [arms, cooling, post, hplace]
    · simp only [arms, cooling, post, hplace, decide_false, Bool.false_and, ite_false]
      rfl
  constructor
  · intro place
    have := h.tokens_le place
    rw [htokens, harms]
    split <;> simp [this]
  · intro hstop place
    have := h.le_tokens hstop place
    rw [htokens, harms]
    split <;> simp [this]
  · exact ordered_post (g := cooling) h.ordered hnone
  · exact fun hdrain => nomatch hd.symm.trans hdrain
  · cases hstop : g.stopping with
    | true => simpa [post, hstop] using h.alternate
    | false =>
        have := alternate_concat h.alternate (h.level hstop ▸ hp)
        simpa [post, hstop] using this
  · intro hstop
    have hlast := getLastD_concat (edges (g.heard ++ g.coming)) pressed false
    have hstop : g.stopping = false := hstop
    simp [post, hstop] at hlast ⊢
  · exact h.tracks
  · have := h.accounted_le
    cases hstop : g.stopping <;> simpa [post, hstop] using this
  · have := h.le_accounted
    intro hstop
    have hstop : g.stopping = false := hstop
    simpa [post, hstop] using this hstop
  · exact h.ui

theorem Sound.gesture (h : Sound g) {made : Gesture} {rest : List Signal}
    (hc : g.coming = .gesture made :: rest) :
    Sound ((g.take (.gesture made) rest).receive (.gesture made)) := by
  have hsame : g.heard ++ g.coming = (g.heard ++ [.gesture made]) ++ rest := by simp [hc]
  have htokens (place : Place) :
      ((g.take (.gesture made) rest).receive (.gesture made)).tokens place = g.tokens place := by
    simp [tokens, receive, take, hc]
  have hedges : edges (g.heard ++ [.gesture made]) = edges g.heard := by
    rw [edges_append]
    exact List.append_nil _
  constructor
  · exact fun place => htokens place ▸ h.tokens_le place
  · exact fun hstop place => htokens place ▸ h.le_tokens hstop place
  · have := h.ordered
    rw [Ordered, hc] at this
    exact this.of_cons
  · exact nofun
  · exact hsame ▸ h.alternate
  · exact hsame ▸ h.level
  · simp only [receive, take, hedges]
    exact h.tracks
  · simp only [receive, take, hedges, ← hsame]
    exact h.accounted_le
  · simp only [receive, take, hedges, ← hsame]
    exact h.le_accounted
  · simp only [receive, take, gestures_append, List.foldl_append, ← h.ui]
    rfl

-- The message of a timer finds the state that armed it, and nothing else of it is
-- left.
theorem Sound.expired (h : Sound g) {place : Place} (hm : .expired place ∈ g.coming) :
    g.arms place = true ∧ g.timers place = none ∧ g.coming.count (.expired place) = 1 := by
  have hpos := List.count_pos_iff.mpr hm
  have hle := h.tokens_le place
  unfold tokens at hle
  have hone : (g.arms place).toNat ≤ 1 := Bool.toNat_le _
  have hlen : (g.timers place).toList.length = 0 := by omega
  refine ⟨?_, by simpa using hlen, by omega⟩
  cases harms : g.arms place with
  | true => rfl
  | false =>
      rw [harms, Bool.toNat_false] at hle
      omega

theorem Sound.unarmed (h : Sound g) {place : Place} (harms : g.arms place = false) :
    g.timers place = none := by
  have hle := h.tokens_le place
  rw [harms, Bool.toNat_false] at hle
  have hlen : (g.timers place).toList.length = 0 :=
    Nat.eq_zero_of_add_eq_zero_right (Nat.le_zero.mp hle)
  simpa using hlen

theorem Sound.debounced (h : Sound g) {rest : List Signal}
    (hc : g.coming = .expired .timer :: rest) :
    Sound ((g.take (.expired .timer) rest).receive (.expired .timer)) := by
  obtain ⟨harms, htimer, hcount⟩ := h.expired (hc ▸ List.mem_cons_self)
  have hcooling : g.debouncer = .CoolingDown := by simpa [arms, place_ne_timer] using harms
  have hsame : g.heard ++ g.coming = (g.heard ++ [.expired .timer]) ++ rest := by simp [hc]
  have hedges : edges (g.heard ++ [.expired .timer]) = edges g.heard := by
    rw [edges_append]
    exact List.append_nil _
  have hrest : rest.count (.expired .timer) = 0 := by simpa [hc] using hcount
  have hnext : (g.take (.expired .timer) rest).receive (.expired .timer) =
      { g.take (.expired .timer) rest with
        debouncer := .Settled, timers := Function.update g.timers .timer none } :=
    if_pos hcooling
  rw [hnext]
  have htokens (place : Place) : tokens { g.take (.expired .timer) rest with
      debouncer := .Settled, timers := Function.update g.timers .timer none } place =
        if place = .timer then 0 else g.tokens place := by
    by_cases hplace : place = .timer
    · simp [tokens, take, hplace, hrest]
    · have hne : Signal.expired .timer ≠ .expired place := fun he =>
        hplace (Signal.expired.inj he).symm
      simp [tokens, take, hplace, hc, List.count_cons_of_ne hne]
  have hafter (place : Place) : arms { g.take (.expired .timer) rest with
      debouncer := .Settled, timers := Function.update g.timers .timer none } place =
        if place = .timer then false else g.arms place := by
    by_cases hplace : place = .timer
    · simp [arms, take, hplace, place_ne_timer]
    · simp only [arms, take, hplace, decide_false, Bool.false_and, ite_false]
      rfl
  constructor
  · intro place
    have := h.tokens_le place
    rw [htokens, hafter]
    split <;> simp [this]
  · intro hstop place
    have := h.le_tokens hstop place
    rw [htokens, hafter]
    split <;> simp [this]
  · have := h.ordered
    rw [Ordered, hc] at this
    exact this.of_cons
  · exact nofun
  · exact hsame ▸ h.alternate
  · exact hsame ▸ h.level
  · simp only [take, hedges]
    exact h.tracks
  · simp only [take, hedges, ← hsame]
    exact h.accounted_le
  · simp only [take, hedges, ← hsame]
    exact h.le_accounted
  · rw [take, gestures_append]
    exact h.ui.trans (congrArg _ (List.append_nil _).symm)

theorem Sound.expects (h : Sound g) {signal : Signal} {rest : List Signal}
    (hc : g.coming = signal :: rest) (hs : signal ≠ .expired .timer)
    (hg : signal.gesture? = none) : g.classifier.Expects signal := by
  cases signal with
  | edge value =>
      intro hlevel
      have hlast := h.tracks value hlevel
      have hturn := h.alternate
      rw [hc, edges_append, ← List.cons_append] at hturn
      refine (List.isChain_append.mp hturn).2.2 value ?_ value rfl rfl
      rw [List.getLast?_cons, ← List.getLastD_eq_getLast?, hlast]
      rfl
  | expired place =>
      have hne : place ≠ .timer := fun he => hs (he ▸ rfl)
      have harms := (h.expired (hc ▸ List.mem_cons_self)).1
      simpa [arms, hne, ClickClassifier.State.Expects] using harms
  | gesture made => exact nomatch hg

-- When the classifier goes on to another state, there is no message on its way of the
-- timers of the two states.
theorem Sound.unexpired (h : Sound g) {signal : Signal} {rest : List Signal}
    (hc : g.coming = signal :: rest) (he : g.classifier.Expects signal) {place : Place}
    (hp : g.classifier.place = some place ∨
      ((g.classifier.next signal).getD g.classifier).place = some place) :
    rest.count (.expired place) = 0 := by
  cases signal with
  | edge value =>
      refine List.count_eq_zero_of_not_mem fun hmem => ?_
      have hordered := h.ordered
      rw [Ordered, hc] at hordered
      exact nomatch List.rel_of_pairwise_cons hordered hmem rfl
  | expired other =>
      rw [he.expired, show g.classifier.place = some other from he] at hp
      cases hp with
      | inl hplace =>
          obtain rfl := Option.some.inj hplace
          have := (h.expired (hc ▸ List.mem_cons_self)).2.2
          simpa [hc] using this
      | inr hidle => exact nomatch hidle
  | gesture made => exact he.elim

-- What `move` does but for the timers.
theorem move_fields (g : Pipeline) (next : Option ClickClassifier.State) :
    (g.move next).classifier = next.getD g.classifier ∧ (g.move next).coming = g.coming ∧
      (g.move next).heard = g.heard ∧ (g.move next).level = g.level ∧
      (g.move next).stopping = g.stopping ∧ (g.move next).draining = g.draining ∧
      (g.move next).debouncer = g.debouncer ∧ (g.move next).ui = g.ui ∧
      (g.move next).now = g.now := by
  cases next <;> exact ⟨rfl, rfl, rfl, rfl, rfl, rfl, rfl, rfl, rfl⟩

theorem move_post (g : Pipeline) (signals : List Signal) (next : Option ClickClassifier.State) :
    (g.post signals).move next = (g.move next).post signals := by
  cases next <;> rfl

theorem Sound.move_tokens (h : Sound g) {signal : Signal} {rest : List Signal}
    (hc : g.coming = signal :: rest) (he : g.classifier.Expects signal) (place : Place) :
    (((g.take signal rest).move (g.classifier.next signal)).tokens place ≤
      (((g.take signal rest).move (g.classifier.next signal)).arms place).toNat) ∧
    (g.stopping = false →
      (((g.take signal rest).move (g.classifier.next signal)).arms place).toNat ≤
        ((g.take signal rest).move (g.classifier.next signal)).tokens place) := by
  have hfree := @Sound.unexpired g h signal rest hc he
  have hkept (hp : g.classifier.place ≠ some place) :
      (g.take signal rest).tokens place = g.tokens place := by
    have hne : signal ≠ .expired place := by
      rintro rfl
      exact hp he
    simp [tokens, take, hc, List.count_cons_of_ne hne]
  cases hnext : g.classifier.next signal with
  | none =>
      have hne : ∀ other, signal ≠ .expired other := by
        rintro other rfl
        exact nomatch he.expired.symm.trans hnext
      have hsame : ((g.take signal rest).move none).tokens place = g.tokens place := by
        simp [tokens, take, move, hc, List.count_cons_of_ne (hne place)]
      rw [hsame]
      exact ⟨h.tokens_le place, fun hstop => h.le_tokens hstop place⟩
  | some next =>
      rw [hnext, Option.getD_some] at hfree
      by_cases hnew : next.place = some place
      · have harms : ((g.take signal rest).move (some next)).arms place = true := by
          simp [arms, move, hnew]
        have htokens : ((g.take signal rest).move (some next)).tokens place = 1 := by
          simp [tokens, take, move, hnew, hfree (Or.inr hnew)]
        rw [harms, htokens]
        exact ⟨le_rfl, fun _ => le_rfl⟩
      · by_cases hold : g.classifier.place = some place
        · have hne : place ≠ .timer := fun he => place_ne_timer _ (he ▸ hold)
          have harms : ((g.take signal rest).move (some next)).arms place = false := by
            simp [arms, move, hnew, hne]
          have htokens : ((g.take signal rest).move (some next)).tokens place = 0 := by
            simp [tokens, take, move, hnew, hold, hfree (Or.inl hold)]
          rw [harms, htokens]
          exact ⟨le_rfl, fun _ => le_rfl⟩
        · have harms : ((g.take signal rest).move (some next)).arms place = g.arms place := by
            simp only [arms, take, move, hnew, hold]
            rfl
          have htokens : ((g.take signal rest).move (some next)).tokens place = g.tokens place := by
            rw [← hkept hold]
            simp [tokens, take, move, hnew, hold]
          rw [harms, htokens]
          exact ⟨h.tokens_le place, fun hstop => h.le_tokens hstop place⟩

theorem Sound.classified (h : Sound g) {signal : Signal} {rest : List Signal}
    (hc : g.coming = signal :: rest) (he : g.classifier.Expects signal) :
    Sound (((g.take signal rest).post ((g.classifier.sends signal).map .gesture)).move
      (g.classifier.next signal)) := by
  have hsends : ∀ sent ∈ (g.classifier.sends signal).map Signal.gesture,
      sent.isExpired = false := by
    intro sent hs
    obtain ⟨made, _, rfl⟩ := List.mem_map.mp hs
    rfl
  obtain ⟨hclassifier, hcoming, hheard, hlevel, hstopping, hdraining, hdebouncer, hui, -⟩ :=
    (g.take signal rest).move_fields (g.classifier.next signal)
  rw [move_post]
  generalize hm : (g.take signal rest).move (g.classifier.next signal) = moved at *
  have hsame : g.heard ++ g.coming = moved.heard ++ moved.coming := by
    rw [hheard, hcoming]
    simp [take, hc]
  have howed := he.owed
  have hnew : moved.classifier = (g.classifier.next signal).getD g.classifier := hclassifier
  have hedges : edges ((moved.post ((g.classifier.sends signal).map .gesture)).heard ++
      (moved.post ((g.classifier.sends signal).map .gesture)).coming) =
        edges (g.heard ++ g.coming) := by
    rw [hsame]
    cases hstop : moved.stopping <;> simp [post, hstop]
  have hheard' : edges moved.heard = edges g.heard ++ edges [signal] := by
    rw [hheard]
    exact edges_append _ _
  constructor
  · intro place
    rw [tokens_post hsends]
    exact hm ▸ (h.move_tokens hc he place).1
  · intro hstop place
    rw [tokens_post hsends]
    exact hm ▸ (h.move_tokens hc he place).2 (hstopping.symm.trans hstop)
  · have hordered := h.ordered
    rw [Ordered, hc] at hordered
    refine ordered_post ?_ hsends
    rw [Ordered, hcoming]
    exact hordered.of_cons
  · exact fun hdrain => nomatch hdraining.symm.trans hdrain
  · exact hedges ▸ h.alternate
  · intro hstop
    rw [hedges]
    exact (h.level (hstopping.symm.trans hstop)).trans hlevel.symm
  · intro value hv
    have hv : ((g.classifier.next signal).getD g.classifier).level = some value := hnew ▸ hv
    rw [post, hheard']
    cases he.level hv with
    | inl hedge =>
        rw [hedge]
        exact getLastD_concat _ value false
    | inr hother =>
        rw [hother.1, List.append_nil]
        exact h.tracks value hother.2
  · have hle := h.accounted_le
    rw [hsame, accounted_append] at hle
    simp only [post, accounted_append, hheard', List.count_append, hnew]
    cases hstop : moved.stopping <;>
      simp only [accounted_gestures, accounted_nil, ite_true, Bool.false_eq_true, ite_false] <;>
      omega
  · intro hstop
    have hstop : moved.stopping = false := hstop
    have hle := h.le_accounted (hstopping.symm.trans hstop)
    simp only [post, accounted_append, hheard', List.count_append, hnew, hstop, Bool.false_eq_true,
      ite_false, accounted_gestures]
    rw [hsame, accounted_append] at hle
    omega
  · have hnone : gestures [signal] = [] := by
      cases signal with
      | gesture made => exact he.elim
      | edge value => rfl
      | expired place => rfl
    rw [post, hheard, hui]
    simp only [take, gestures_append, hnone, List.append_nil]
    exact h.ui

theorem receive_classifier (g : Pipeline) {signal : Signal} (hs : signal ≠ .expired .timer)
    (hg : signal.gesture? = none) :
    g.receive signal =
      (g.post ((g.classifier.sends signal).map .gesture)).move (g.classifier.next signal) := by
  unfold receive
  split
  · exact absurd rfl hs
  · exact nomatch hg
  · rfl

-- Every signal that comes is handled in a state that waits for it.
theorem Sound.receive (h : Sound g) {signal : Signal} {rest : List Signal}
    (hc : g.coming = signal :: rest) : Sound ((g.take signal rest).receive signal) := by
  by_cases hs : signal = .expired .timer
  · subst hs
    exact h.debounced hc
  · cases hg : signal.gesture? with
    | none =>
        rw [receive_classifier _ hs hg]
        exact h.classified hc (h.expects hc hs hg)
    | some made =>
        cases signal with
        | gesture made => exact h.gesture hc
        | edge value => exact nomatch hg
        | expired place => exact nomatch hg

theorem Sound.step (h : Sound g) {next : Pipeline} (hs : Step g next) : Sound next := by
  cases hs with
  | tick now _ => exact h.tick now
  | rest hc => exact h.rest hc
  | stop coming hc => exact h.stop hc
  | fire fired hd hf hsince =>
      exact h.fire hd hf fun place hp => (hsince place hp).imp fun _ hs => hs.1
  | sample pressed =>
      unfold sample
      split_ifs with hcommit
      · exact h.drain.commit rfl hcommit.1 hcommit.2
      · exact h.drain
  | deliver signal rest hc => exact h.receive hc

-- A property of pipelines that excludes the unsound ones and lasts, also through a
-- restart.
structure Lasting (P : Pipeline → Prop) : Prop where
  sound : ∀ g, P g → Sound g
  step : ∀ g next, P g → Step g next → P next
  restart : ∀ g first, P g → Fresh first → g.now ≤ first.now → P first

theorem lasting_sound : Lasting Sound where
  sound _ h := h
  step _ _ h hs := h.step hs
  restart _ _ _ hf _ := sound_fresh hf

end Pipeline

end ButtonPipeline

end CortexFlow
