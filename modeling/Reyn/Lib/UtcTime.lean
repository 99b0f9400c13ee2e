import Reyn.Lib.Calendar

/-! # Aware datetimes in UTC

A datetime is its microseconds of the POSIX time. Its ISO text writes a fraction only
when there is one, and is read back to the same datetime.
-/
namespace Py

/-- The days of the years 1 to 9999. -/
def InYears (micros : ℤ) : Prop :=
  1 ≤ micros / 1000000 / 86400 + epochOrdinal ∧ micros / 1000000 / 86400 + epochOrdinal ≤ 3652059

instance : DecidablePred InYears := fun _ => inferInstanceAs (Decidable (_ ∧ _))

structure UtcTime where
  micros : ℤ
  inYears : InYears micros
  deriving DecidableEq

namespace UtcTime

/-- None for the `OverflowError` of a datetime beyond the years. -/
def ofMicros? (micros : ℤ) : Option UtcTime := if h : InYears micros then some ⟨micros,h⟩ else none

def reading (t : UtcTime) : LocalTime := localtime (fun _ => 0) (t.micros / 1000000)

def fraction (t : UtcTime) : ℕ := (t.micros % 1000000).toNat

/-- `datetime.isoformat` -/
def isoformat (t : UtcTime) : String :=
  let text := Py.isoformat t.reading
  String.ofList (text.take 19 ++ ((if t.fraction = 0 then [] else '.' :: pad 6 t.fraction) ++ text.drop 19))

/-- `datetime.fromisoformat` for a text in that form. -/
def fromisoformat (s : String) : Option UtcTime :=
  let cs := s.toList
  let micros (whole : List Char) (fraction : ℕ) : Option UtcTime :=
    (Py.fromisoformat whole).bind fun t => ofMicros? (timestamp t * 1000000 + fraction)
  if cs[19]? = some '.' then (digits ((cs.drop 20).take 6)).bind (micros (cs.take 19 ++ cs.drop 26)) else micros cs 0

theorem reading_valid (t : UtcTime) : t.reading.valid = true ∧ t.reading.date.year < 10000 := by
  apply localtime_valid
  · decide
  · rw [add_zero]
    exact t.inYears.1
  · rw [add_zero]
    exact t.inYears.2

theorem timestamp_reading (t : UtcTime) : timestamp t.reading = t.micros / 1000000 := by
  apply timestamp_localtime
  rw [add_zero]
  exact t.inYears.1

theorem isoformat_reading (t : UtcTime) :
    ∃ front back, front.length = 19 ∧ Py.isoformat t.reading = front ++ '+' :: back :=
  isoformat_text t.reading_valid.1 t.reading_valid.2

/-- A datetime is read back from its text. -/
theorem fromisoformat_isoformat (t : UtcTime) : fromisoformat t.isoformat = some t := by
  obtain ⟨hvalid,hyear⟩ := t.reading_valid
  have hread : Py.fromisoformat (Py.isoformat t.reading) = some t.reading :=
    Py.fromisoformat_isoformat hvalid hyear (Int.zero_emod 60)
  obtain ⟨front,back,hlength,htext⟩ := t.isoformat_reading
  have hfraction : t.fraction < 10 ^ 6 := by
    unfold fraction
    omega
  have hmicros : ofMicros? (timestamp t.reading * 1000000 + t.fraction) = some t := by
    have heq : timestamp t.reading * 1000000 + t.fraction = t.micros := by
      rw [timestamp_reading,fraction]
      omega
    rw [heq,ofMicros?,dif_pos t.inYears]
  have htake : (front ++ '+' :: back).take 19 = front := List.take_left' hlength
  have hdrop : (front ++ '+' :: back).drop 19 = '+' :: back := List.drop_left' hlength
  unfold isoformat fromisoformat
  rw [htext] at hread ⊢
  dsimp only
  rw [htake,hdrop,String.toList_ofList]
  split_ifs with hzero hdot hdot
  · rw [List.nil_append,List.getElem?_append_right (Nat.le_of_eq hlength),hlength] at hdot
    cases hdot
  · rw [List.nil_append,hread]
    rw [hzero] at hmicros
    exact hmicros
  · have hpad : (pad 6 t.fraction).length = 6 := length_pad (by decide) hfraction
    have hdigits : ((front ++ ('.' :: pad 6 t.fraction ++ '+' :: back)).drop 20).take 6 = pad 6 t.fraction := by
      have hfront : front.drop 20 = [] := List.drop_eq_nil_of_le (by omega)
      rw [List.drop_append,hlength,hfront]
      exact List.take_left' hpad
    have hrest : (front ++ ('.' :: pad 6 t.fraction ++ '+' :: back)).take 19 ++
        (front ++ ('.' :: pad 6 t.fraction ++ '+' :: back)).drop 26 = front ++ '+' :: back := by
      rw [List.take_left' hlength,List.drop_append,hlength]
      simp [hpad,hlength]
    rw [hdigits,hrest,digits_pad,hread]
    exact hmicros
  · apply absurd _ hdot
    rw [List.getElem?_append_right (Nat.le_of_eq hlength),hlength]
    rfl

/-- No text of a datetime is empty. -/
theorem isoformat_ne (t : UtcTime) : t.isoformat ≠ "" := by
  intro h
  have hread := t.fromisoformat_isoformat
  rw [h] at hread
  cases hread

end UtcTime
end Py
