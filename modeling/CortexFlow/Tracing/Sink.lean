import CortexFlow.Core

namespace CortexFlow

namespace Tracing

-- A reading of `CLOCK_MONOTONIC`, which counts from some point in the past.
structure timespec where
  tv_sec : Int
  tv_nsec : Int
  sec_range : 0 ≤ tv_sec ∧ tv_sec < 2 ^ 63
  nsec_range : 0 ≤ tv_nsec ∧ tv_nsec < 10 ^ 9

def timespec.nanos (reading : timespec) : Int := reading.tv_sec * 10 ^ 9 + reading.tv_nsec

-- What `%lld.%03lld` is given.
structure Elapsed where
  sec : Int
  ms : Int
deriving DecidableEq

def Elapsed.text (elapsed : Elapsed) : String :=
  let digits := toString elapsed.ms
  toString elapsed.sec ++ "." ++ String.ofList (List.replicate (3 - digits.length) '0') ++ digits

-- The time it says in milliseconds.
def Elapsed.value (elapsed : Elapsed) : Int := elapsed.sec * 1000 + elapsed.ms

-- `format_elapsed` with the clock's reading and that of the origin.
def format_elapsed (now o : timespec) : Elapsed :=
  let sec := wrapTicks (now.tv_sec - o.tv_sec)
  let nsec := now.tv_nsec - o.tv_nsec
  if nsec < 0 then ⟨wrapTicks (sec - 1), (nsec + 1000000000).tdiv 1000000⟩
  else ⟨sec, nsec.tdiv 1000000⟩

-- What the calls of `platform_trace_sink` print, one after the other, given what the
-- calls of `clock_gettime` return. The first call reads the clock and then, as it asks
-- for the origin, once more.
def printed : Option timespec → List timespec → List Elapsed
  | none, now :: o :: clock => format_elapsed now o :: printed (some o) clock
  | some o, now :: clock => format_elapsed now o :: printed (some o) clock
  | _, _ => []

-- The difference of the readings, rounded down to seconds and milliseconds.
theorem format_elapsed_eq (now o : timespec) :
    (format_elapsed now o).sec = (now.nanos - o.nanos) / 10 ^ 9 ∧
      (format_elapsed now o).ms = (now.nanos - o.nanos) % 10 ^ 9 / 10 ^ 6 := by
  obtain ⟨hsn, hnn⟩ := And.intro now.sec_range now.nsec_range
  obtain ⟨hso, hno⟩ := And.intro o.sec_range o.nsec_range
  have hsec : wrapTicks (now.tv_sec - o.tv_sec) = now.tv_sec - o.tv_sec := by
    apply wrapTicks_of_representable
    constructor <;> omega
  have hborrow : wrapTicks (now.tv_sec - o.tv_sec - 1) = now.tv_sec - o.tv_sec - 1 := by
    apply wrapTicks_of_representable
    constructor <;> omega
  unfold format_elapsed timespec.nanos
  simp only [hsec, hborrow]
  split_ifs with hneg
  · rw [Int.tdiv_eq_ediv_of_nonneg (by omega)]
    constructor <;> simp only <;> omega
  · rw [Int.tdiv_eq_ediv_of_nonneg (by omega)]
    constructor <;> simp only <;> omega

theorem value_format_elapsed (now o : timespec) :
    (format_elapsed now o).value = (now.nanos - o.nanos) / 10 ^ 6 := by
  obtain ⟨hsec, hms⟩ := format_elapsed_eq now o
  rw [Elapsed.value, hsec, hms]
  omega

theorem ms_range (now o : timespec) :
    0 ≤ (format_elapsed now o).ms ∧ (format_elapsed now o).ms ≤ 999 := by
  rw [(format_elapsed_eq now o).2]
  omega

-- It is negative exactly if the clock was read before the origin.
theorem sec_nonneg_iff (now o : timespec) :
    0 ≤ (format_elapsed now o).sec ↔ o.nanos ≤ now.nanos := by
  rw [(format_elapsed_eq now o).1]
  omega

theorem printed_some (o : timespec) (clock : List timespec) :
    printed (some o) clock = clock.map fun now => format_elapsed now o := by
  induction clock with
  | nil => rfl
  | cons now clock ih => rw [printed, List.map_cons, ih]

-- What is said of the times that a sequence of calls prints.
structure CountsFromFirst (clock : List timespec) : Prop where
  nonneg : ∀ elapsed ∈ printed none clock, 0 ≤ elapsed.sec
  ms_range : ∀ elapsed ∈ printed none clock, 0 ≤ elapsed.ms ∧ elapsed.ms ≤ 999
  monotone : (printed none clock).Pairwise fun a b => a.value ≤ b.value
  floor : ∀ now o later, clock = now :: o :: later → (printed none clock).tail.map Elapsed.value =
    later.map fun reading => (reading.nanos - o.nanos) / 10 ^ 6

theorem printed_none (now o : timespec) (later : List timespec) :
    printed none (now :: o :: later) =
      format_elapsed now o :: later.map fun reading => format_elapsed reading o := by
  rw [printed, printed_some]

theorem countsFromFirst_of_short {clock : List timespec} (h : clock.length ≤ 1) :
    CountsFromFirst clock := by
  have hnone : printed none clock = [] := by
    rcases clock with _ | ⟨now, _ | ⟨o, later⟩⟩
    · rfl
    · rfl
    · simp at h
  refine ⟨by simp [hnone], by simp [hnone], by simp [hnone], fun now o later heq => ?_⟩
  rw [heq] at h
  simp at h

-- A clock that never goes back gives times that count from the first call exactly if
-- it stands still between the two readings of that call.
theorem counts_from_first_iff {clock : List timespec}
    (hclock : clock.Pairwise fun a b => a.nanos ≤ b.nanos) :
    CountsFromFirst clock ↔ ∀ now o later, clock = now :: o :: later → now.nanos = o.nanos := by
  rcases clock with _ | ⟨now, _ | ⟨o, later⟩⟩
  · exact iff_of_true (countsFromFirst_of_short (by simp)) fun now o later heq => by simp at heq
  · exact iff_of_true (countsFromFirst_of_short (by simp)) fun now o later heq => by simp at heq
  · obtain ⟨hfirst, hlater⟩ := List.pairwise_cons.mp hclock
    have hread : now.nanos ≤ o.nanos := hfirst o (by simp)
    constructor
    · intro h now' o' later' heq
      cases heq
      have hsec := h.nonneg (format_elapsed now o) (by rw [printed_none]; simp)
      rw [sec_nonneg_iff] at hsec
      omega
    · intro h
      have hstill : now.nanos = o.nanos := h now o later rfl
      obtain ⟨horigin, hsorted⟩ := List.pairwise_cons.mp hlater
      refine ⟨?_, ?_, ?_, fun now' o' later' heq => ?_⟩
      · rw [printed_none]
        intro elapsed hmem
        rcases List.mem_cons.mp hmem with rfl | hrest
        · exact (sec_nonneg_iff now o).mpr hstill.ge
        · obtain ⟨reading, hreading, rfl⟩ := List.mem_map.mp hrest
          exact (sec_nonneg_iff reading o).mpr (horigin reading hreading)
      · rw [printed_none]
        intro elapsed hmem
        rcases List.mem_cons.mp hmem with rfl | hrest
        · exact ms_range now o
        · obtain ⟨reading, _, rfl⟩ := List.mem_map.mp hrest
          exact ms_range reading o
      · rw [printed_none, List.pairwise_cons, List.pairwise_map]
        refine ⟨fun elapsed hmem => ?_, hsorted.imp fun hle => ?_⟩
        · obtain ⟨reading, hreading, rfl⟩ := List.mem_map.mp hmem
          have hle := horigin reading hreading
          rw [value_format_elapsed, value_format_elapsed]
          omega
        · rw [value_format_elapsed, value_format_elapsed]
          omega
      · cases heq
        rw [printed_none, List.tail_cons, List.map_map]
        exact List.map_congr_left fun reading _ => value_format_elapsed reading o

def reading (tv_nsec : Fin (10 ^ 9)) : timespec :=
  ⟨5, tv_nsec, by decide, by omega⟩

-- The second call comes 12 ms after the first.
theorem counts_from_first_still :
    CountsFromFirst [reading 100, reading 100, reading 12345678] :=
  (counts_from_first_iff (by simp [reading, timespec.nanos])).mpr fun now o later heq => by
    cases heq
    rfl

-- The clock goes on by 100 ns while the first call sets the origin, which prints `-1.999`.
theorem not_always_counts_from_first :
    ¬∀ clock : List timespec, clock.Pairwise (fun a b => a.nanos ≤ b.nanos) →
      CountsFromFirst clock := by
  intro hall
  have h := hall [reading 100, reading 200] (by simp [reading, timespec.nanos])
  have hsec := h.nonneg (format_elapsed (reading 100) (reading 200)) (by simp [printed])
  exact absurd hsec (by decide)

example : (format_elapsed (reading 100) (reading 200)).text = "-1.999" := by decide

end Tracing

end CortexFlow
