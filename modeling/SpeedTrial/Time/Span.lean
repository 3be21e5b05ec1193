import SpeedTrial.Decimal.Layout

/-!
# Spans of time

A span is a whole number of nanoseconds.  It is written in three ways: for people in the
largest fitting unit with two places, exactly in messages, and as a clock for a whole job.

* `Span.human` picks the unit from the exact span and rounds the number afterwards.
* `Span.exact` loses nothing.
* `ratePerSecond` and `nanosPerOperation` turn a span and a count into a double.
-/

namespace SpeedTrial.Time

open SpeedTrial.Numeric SpeedTrial.Decimal

/-- A span of time in nanoseconds. -/
structure Span where
  nanos : Nat
  deriving DecidableEq, Repr, Inhabited

namespace Span

/-- A span of whole seconds and further nanoseconds. -/
def ofSeconds (seconds : Nat) (nanos : Nat) : Span := ⟨seconds * 1000000000 + nanos⟩

/-- A span of whole microseconds. -/
def ofMicros (n : Nat) : Span := ⟨n * 1000⟩

/-- Whole microseconds in the span. -/
def micros (d : Span) : Nat := d.nanos / 1000

/-- Whole milliseconds in the span. -/
def millis (d : Span) : Nat := d.nanos / 1000000

/-! ## For people -/

/-- The units a span is written in. -/
inductive Scale where
  | nanoseconds
  | microseconds
  | milliseconds
  | seconds
  deriving DecidableEq, Repr

/-- How many nanoseconds make one unit. -/
def Scale.nanos : Scale → Nat
  | .nanoseconds => 1
  | .microseconds => 1000
  | .milliseconds => 1000000
  | .seconds => 1000000000

/-- The ASCII name of a unit. -/
def Scale.name : Scale → String
  | .nanoseconds => "ns"
  | .microseconds => "us"
  | .milliseconds => "ms"
  | .seconds => "s"

/-- The largest unit, up to seconds, that the span reaches. -/
def scale (d : Span) : Scale :=
  if d.nanos < 1000 then .nanoseconds
  else if d.nanos < 1000000 then .microseconds
  else if d.nanos < 1000000000 then .milliseconds
  else .seconds

/-- The span in its unit, as a double. -/
def amount (d : Span) : Float := ofCount d.nanos / ofCount d.scale.nanos

/-- The number written for people: nanoseconds are whole, other units have two places. -/
def amountText (d : Span) : String :=
  match d.scale with
  | .nanoseconds => toString d.nanos
  | _ => fixed 2 d.amount

/-- The span for people, such as `1.50ms`. -/
def human (d : Span) : String := d.amountText ++ d.scale.name

/-! ## Exactly -/

/-- A whole number and the places behind it, without trailing zeros. -/
def trimmedPlaces (whole rest places : Nat) : String :=
  let text := padZeros places (toString rest)
  let kept := (text.toList.reverse.dropWhile (· == '0')).reverse
  if kept.isEmpty then toString whole else s!"{whole}." ++ String.ofList kept

/-- The exact span in the largest unit that it reaches, such as `1.5ms`. -/
def exact (d : Span) : String :=
  match d.scale with
  | .nanoseconds => s!"{d.nanos}ns"
  | .microseconds => trimmedPlaces (d.nanos / 1000) (d.nanos % 1000) 3 ++ "µs"
  | .milliseconds => trimmedPlaces (d.nanos / 1000000) (d.nanos % 1000000) 6 ++ "ms"
  | .seconds => trimmedPlaces (d.nanos / 1000000000) (d.nanos % 1000000000) 9 ++ "s"

/-! ## As a clock -/

/-- Hours, minutes, seconds and milliseconds of a job, such as `00:00:03.214`. -/
def clock (d : Span) : String :=
  let ms := d.millis
  let two (n : Nat) := padZeros 2 (toString n)
  two (ms / 3600000) ++ ":" ++ two (ms / 60000 % 60) ++ ":" ++ two (ms / 1000 % 60) ++ "." ++
    padZeros 3 (toString (ms % 1000))

end Span

/-! ## Rates -/

/-- Operations per second; zero for an empty span. -/
def ratePerSecond (operations : Nat) (d : Span) : Float :=
  let seconds := ofCount (d.nanos / 1000000000) + ofCount (d.nanos % 1000000000) / 1000000000.0
  if seconds > 0.0 then ofCount operations / seconds else 0.0

/-- Average nanoseconds per operation; zero without operations. -/
def nanosPerOperation (d : Span) (operations : Nat) : Float :=
  if operations = 0 then 0.0 else ofCount d.nanos / ofCount operations

/-- A rate for people: whole below a thousand, else with two places in thousands, millions
or billions. -/
def rateText (rate : Float) : String :=
  if rate < 1000.0 then fixed 0 rate
  else if rate < 1000000.0 then fixed 2 (rate / 1000.0) ++ "K"
  else if rate < 1000000000.0 then fixed 2 (rate / 1000000.0) ++ "M"
  else fixed 2 (rate / 1000000000.0) ++ "G"

end SpeedTrial.Time
