import SpeedTrial.Sketch.Shared
import SpeedTrial.Stream.Basic
import SpeedTrial.Time.Span
import SpeedTrial.Trial.Tally

/-!
# What a profile with many threads needs to know
-/

namespace SpeedTrial.Profile

/-- The workers of a profile with many threads, and how their trials go. -/
structure Settings where
  writers : Nat := 1
  readers : Nat := 0
  /-- The share of writes among the units of a writer; at zero all are writes. -/
  writesRatio : Float := 0.0
  mode : Sketch.Mode := .locked
  /-- How long a reader sleeps before each unit. -/
  readerInterval : Option Time.Span := none
  values : Stream.Kind := .sequential
  seed : UInt64 := 0
  freeze : Trial.FreezeScope := .everyone
  /-- How long a wait sleeps between two looks. -/
  pollInterval : Time.Span := Time.Span.ofMicros 1000
  /-- A trial that takes longer fails. -/
  trialTimeout : Option Time.Span := none

end SpeedTrial.Profile
