import OpeningTimes.Written
import OpeningTimes.Main
import OpeningTimes.Proofs.Expression.AllDay
import OpeningTimes.Proofs.Expression.Joining
import OpeningTimes.Proofs.Expression.ErrorPlaces
import OpeningTimes.Proofs.Answer.Decided
import OpeningTimes.Proofs.Answer.Extent
import OpeningTimes.Proofs.Answer.OpenStretches
import OpeningTimes.Proofs.Recurrence.Repeats
import OpeningTimes.Proofs.Recurrence.EveryYear
import OpeningTimes.Proofs.Schedule.LastChange
import OpeningTimes.Proofs.Answer.RangeEnds
import OpeningTimes.Proofs.Answer.DayStretches
import OpeningTimes.Proofs.Answer.LayersBuilt
import OpeningTimes.Proofs.Schedule.Questions
import OpeningTimes.Proofs.Answer.Lasting
import OpeningTimes.Proofs.Answer.Mentioned
import OpeningTimes.Proofs.Expression.Layout
import OpeningTimes.Proofs.Text.Timestamps
import OpeningTimes.Proofs.Calendar.Occurrences
import OpeningTimes.Proofs.Recurrence.WeekSteps
import OpeningTimes.Proofs.Schedule.ProperLayers
