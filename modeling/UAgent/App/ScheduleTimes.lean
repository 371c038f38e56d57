/-
UAgent/App/ScheduleTimes.lean

When a schedule that repeats after an interval is due (`ScheduleCalendar`,
src/app/schedule.cc).  The closed form it computes is the least time that is
due after the instant asked about, and nothing it computes on the way leaves
the range of an `int64_t`.  Main result: `interval_times`.
-/
import UAgent.App.Schedule
import Mathlib.Data.Int.ModEq
import Mathlib.Order.Bounds.Basic
import Mathlib.Tactic.Ring

namespace UAgent

open Bytes

/-- The next time of an interval, as `ScheduleCalendar` computes it. -/
def intervalNext (start interval after : Int) : Int :=
  if start > after then start else start + ((after - start) / interval + 1) * interval

/-- The times behind an instant at which an interval is due. -/
def DueAfter (start interval after : Int) : Set Int :=
  {t | after < t ∧ start ≤ t ∧ t ≡ start [ZMOD interval]}

variable {start interval after : Int}

/-- The time after the instant by less than an interval is the least. -/
theorem isLeast_dueAfter {next : Int} (hnext : next ∈ DueAfter start interval after)
    (hless : next = start ∨ next ≤ after + interval) :
    IsLeast (DueAfter start interval after) next := by
  refine ⟨hnext, fun t ht => ?_⟩
  obtain ⟨hafter, hstart, hmod⟩ := ht
  rcases hless with rfl | hless
  · exact hstart
  by_contra hlt
  rw [not_le] at hlt
  have hsame : next ≡ t [ZMOD interval] := hnext.2.2.trans hmod.symm
  have hpos : 0 < interval := by omega
  have hdiv : interval ∣ next - t := (Int.modEq_iff_dvd.mp hsame.symm)
  have hle := Int.le_of_dvd (by omega) hdiv
  omega

/-- **The next time.**  The closed form is the least time that is due. -/
theorem intervalNext_isLeast (hpos : 0 < interval) :
    IsLeast (DueAfter start interval after) (intervalNext start interval after) := by
  rw [intervalNext]
  split_ifs with hlater
  · exact isLeast_dueAfter ⟨hlater, le_rfl, rfl⟩ (.inl rfl)
  · have habove := Int.lt_ediv_add_one_mul_self (after - start) hpos
    have hbelow := Int.ediv_mul_le (after - start) hpos.ne'
    have hexpand : ((after - start) / interval + 1) * interval =
        (after - start) / interval * interval + interval := by ring
    refine isLeast_dueAfter ⟨by omega, by omega, ?_⟩ (.inr (by omega))
    exact Int.modEq_iff_dvd.mpr ⟨-((after - start) / interval + 1), by ring⟩

/-- A value an `int64_t` holds. -/
def InInt64 (value : Int) : Prop := -2 ^ 63 ≤ value ∧ value < 2 ^ 63

/-- What is computed of an interval schedule: the difference, how many
intervals it spans with the next one, their length, and the times offered. -/
def intervalValues (start interval after : Int) : List Int :=
  [after - start, (after - start) / interval + 1, ((after - start) / interval + 1) * interval,
    intervalNext start interval after, intervalNext start interval after + interval,
    intervalNext start interval after + 2 * interval]

/-- Nothing computed of admitted times is too large. -/
theorem inInt64_of_admitted (hstart : 0 ≤ start ∧ start ≤ kMaxScheduleEpoch)
    (hafter : 0 ≤ after ∧ after ≤ kMaxScheduleEpoch)
    (hinterval : kSecondsPerMinute ≤ interval ∧ interval ≤ kSecondsPerYear) :
    ∀ value ∈ intervalValues start interval after, InInt64 value := by
  rw [kMaxScheduleEpoch] at hstart hafter
  rw [kSecondsPerMinute, kSecondsPerYear] at hinterval
  have hpos : 0 < interval := by omega
  have habove := Int.lt_ediv_add_one_mul_self (after - start) hpos
  have hbelow := Int.ediv_mul_le (after - start) hpos.ne'
  have hexpand : ((after - start) / interval + 1) * interval =
      (after - start) / interval * interval + interval := by ring
  have hquotient : -4102444801 ≤ (after - start) / interval ∧
      (after - start) / interval ≤ 4102444800 := by
    constructor
    · exact Int.le_ediv_of_mul_le hpos (by nlinarith)
    · exact Int.ediv_le_of_le_mul hpos (by nlinarith)
  have hnext : 0 ≤ intervalNext start interval after ∧
      intervalNext start interval after ≤ 4102444800 + 31536000 := by
    rw [intervalNext]
    split_ifs <;> constructor <;> omega
  intro value hvalue
  simp only [intervalValues, List.mem_cons, List.not_mem_nil, or_false] at hvalue
  rw [InInt64]
  rcases hvalue with rfl | rfl | rfl | rfl | rfl | rfl <;> constructor <;> omega

/-- **Interval schedules.**  For all integers the closed form is the least time
due; and what the calendar answers for an interval it accepts are that time and
the two that follow it, with no value too large on the way and the quotient the
same whichever way it is rounded. -/
theorem interval_times :
    (∀ start interval after : Int, 0 < interval →
      IsLeast (DueAfter start interval after) (intervalNext start interval after)) ∧
    ∀ (c : Calendar) (schedule : Json) (after : Int) (times : List Int),
      jsonValueStr schedule (lit "type") [] = lit "interval" →
      scheduleCalendar c schedule after = .ok times →
      let start := jsonValueInt64 schedule (lit "start") 0
      let interval := jsonValueInt64 schedule (lit "seconds") 0
      times = [intervalNext start interval after, intervalNext start interval after + interval,
          intervalNext start interval after + 2 * interval] ∧
        IsLeast (DueAfter start interval after) (intervalNext start interval after) ∧
        (start ≤ after → (after - start).tdiv interval = (after - start) / interval) ∧
        ∀ value ∈ intervalValues start interval after, InInt64 value := by
  refine ⟨fun start interval after hpos => intervalNext_isLeast hpos, ?_⟩
  intro c schedule after times htype h start interval
  rw [scheduleCalendar, htype] at h
  by_cases hafter : after < 0 ∨ after > kMaxScheduleEpoch
  · rw [if_pos hafter] at h
    cases h
  rw [if_neg hafter, if_neg (by decide), if_pos rfl] at h
  by_cases hadmitted : interval < kSecondsPerMinute ∨ interval > kSecondsPerYear ∨ start < 0 ∨
      start > kMaxScheduleEpoch
  · rw [if_pos hadmitted] at h
    cases h
  rw [if_neg hadmitted] at h
  obtain rfl := Except.ok.inj h
  simp only [not_or, not_lt] at hafter hadmitted
  obtain ⟨hminute, hyear, hstart, hmax⟩ := hadmitted
  have hpos : 0 < interval := by
    rw [kSecondsPerMinute] at hminute
    omega
  refine ⟨?_, intervalNext_isLeast hpos, fun hle => ?_,
    inInt64_of_admitted ⟨hstart, hmax⟩ hafter ⟨hminute, hyear⟩⟩
  · simp [kUpcomingScheduleTimes, List.range_succ, intervalNext, start, interval]
  · exact Int.tdiv_eq_ediv_of_nonneg (by omega)

/-- Every ten minutes from the hundredth second on. -/
def tenMinutes : Json :=
  .ofFields [(lit "type", .str (lit "interval")), (lit "seconds", .uint 600),
    (lit "start", .uint 100)]

/-- A calendar that is not asked. -/
def noCalendar : Calendar := ⟨fun _ => false, fun _ _ => none, fun _ clock => (-1, clock)⟩

/-- Asked at the thousandth second, the calendar answers the least time due and
the two that follow it. -/
theorem interval_times_ten_minutes :
    scheduleCalendar noCalendar tenMinutes 1000 = .ok [1300, 1900, 2500] ∧
      [1300, 1900, 2500] = [intervalNext 100 600 1000, intervalNext 100 600 1000 + 600,
        intervalNext 100 600 1000 + 2 * 600] ∧
      IsLeast (DueAfter 100 600 1000) (intervalNext 100 600 1000) ∧
      (1000 - 100 : Int).tdiv 600 = (1000 - 100) / 600 ∧
      ∀ value ∈ intervalValues 100 600 1000, InInt64 value := by
  have hanswer : scheduleCalendar noCalendar tenMinutes 1000 = .ok [1300, 1900, 2500] := by decide
  have htimes := interval_times.2 noCalendar tenMinutes 1000 _ (by decide) hanswer
  exact ⟨hanswer, htimes.1, interval_times.1 100 600 1000 (by decide),
    htimes.2.2.1 (by decide), htimes.2.2.2⟩

end UAgent
