import EmphasisSpacing.Golden.Regenerate
import EmphasisSpacing.Main
import EmphasisSpacing.Proofs.Respacing
import EmphasisSpacing.Proofs.TrimAgain
import EmphasisSpacing.Proofs.Acceptance
import EmphasisSpacing.Proofs.ItemStart
import EmphasisSpacing.Proofs.HintFollowed
import EmphasisSpacing.Proofs.HintLines
import EmphasisSpacing.Proofs.Prediction
import EmphasisSpacing.Proofs.OutputFile
import EmphasisSpacing.Proofs.TrimmedStretches
import EmphasisSpacing.Proofs.SpacedStretches
import EmphasisSpacing.Proofs.GoldenMembers
import EmphasisSpacing.Proofs.SpacingOrder
import EmphasisSpacing.Proofs.BlockBrackets
import EmphasisSpacing.Proofs.WrittenOut
import EmphasisSpacing.Proofs.PairedRuns
import EmphasisSpacing.Proofs.Excerpt
import EmphasisSpacing.Proofs.FolderWalk
import EmphasisSpacing.Proofs.LeadingStar
import EmphasisSpacing.Proofs.DelimitedSpans
import EmphasisSpacing.Proofs.HintLinks
import EmphasisSpacing.Proofs.SettingLayers
