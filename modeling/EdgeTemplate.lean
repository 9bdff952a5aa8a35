import EdgeTemplate.Dangling
import EdgeTemplate.GrammarFile
import EdgeTemplate.Main
import EdgeTemplate.Proofs.ArenaSound
import EdgeTemplate.Proofs.ArgumentSound
import EdgeTemplate.Proofs.BlockMatch
import EdgeTemplate.Proofs.CacheInvariant
import EdgeTemplate.Proofs.ClassifySound
import EdgeTemplate.Proofs.CommentSound
import EdgeTemplate.Proofs.CutOffSound
import EdgeTemplate.Proofs.DanglingSound
import EdgeTemplate.Proofs.DiagnosticsMove
import EdgeTemplate.Proofs.DraftSound
import EdgeTemplate.Proofs.EndSound
import EdgeTemplate.Proofs.EntityNameSound
import EdgeTemplate.Proofs.EvictionSound
import EdgeTemplate.Proofs.ExcerptSound
import EdgeTemplate.Proofs.ExtentSound
import EdgeTemplate.Proofs.Graft
import EdgeTemplate.Proofs.HitSound
import EdgeTemplate.Proofs.LazyExpiry
import EdgeTemplate.Proofs.LineSound
import EdgeTemplate.Proofs.LiteralSound
import EdgeTemplate.Proofs.MarkerSound
import EdgeTemplate.Proofs.MaskSound
import EdgeTemplate.Proofs.MustacheSound
import EdgeTemplate.Proofs.NodeAtSound
import EdgeTemplate.Proofs.NormalForm
import EdgeTemplate.Proofs.QueryFrame
import EdgeTemplate.Proofs.RefusedLimits
import EdgeTemplate.Proofs.RepairSound
import EdgeTemplate.Proofs.Retention
import EdgeTemplate.Proofs.TagExact
import EdgeTemplate.Proofs.TallySound
import EdgeTemplate.Proofs.UnclosedSound
import EdgeTemplate.Session
import EdgeTemplate.Settings
