import LazyTree.Main
import LazyTree.Proofs.FailedChecks
import LazyTree.Proofs.NodePaths
import LazyTree.Proofs.SharedNodes
import LazyTree.Proofs.SoundSessions
import LazyTree.Session.Children
import LazyTree.Session.Disk
import LazyTree.Session.Table
import LazyTree.Proofs.Conduct
import LazyTree.Proofs.CompleteDirectories
import LazyTree.Proofs.DiskQueries
import LazyTree.Proofs.AllowedPlaces
import LazyTree.Proofs.RealPlaces
import LazyTree.Proofs.DiskPaths
import LazyTree.Proofs.TransparentCache
import LazyTree.Proofs.ZoneSlices
import LazyTree.Proofs.HealingChecks
import LazyTree.Proofs.ExactNames
import LazyTree.Proofs.TableSpellings
import LazyTree.Proofs.RefusedListings
import LazyTree.Proofs.AdmittedChildren
import LazyTree.Proofs.NamedRemovals
import LazyTree.Proofs.MergedListings
import LazyTree.Proofs.ListedKinds
import LazyTree.Proofs.CommutingChanges
import LazyTree.Proofs.FirstViolations
import LazyTree.Proofs.ListedLookups
import LazyTree.Proofs.EndlessPaths
import LazyTree.Proofs.ComposedPaths
import LazyTree.Proofs.DirtySubtrees
import LazyTree.Proofs.SettingsFiles
import LazyTree.Proofs.LawfulNames
