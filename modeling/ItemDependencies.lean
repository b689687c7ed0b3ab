import ItemDependencies.Definitions.OrdinalRenaming
import ItemDependencies.Definitions.OriginalAnalysis
import ItemDependencies.Expansion.CohortMerging
import ItemDependencies.Expansion.DefinitionFiling
import ItemDependencies.Expansion.DependencyPostorder
import ItemDependencies.Expansion.FrontierRuns
import ItemDependencies.Expansion.OutputDemandCarriers
import ItemDependencies.Expansion.OutputPartition
import ItemDependencies.Expansion.OwnerMembers
import ItemDependencies.Expansion.SourceFrontiers
import ItemDependencies.Expansion.SourceUnitContainers
import ItemDependencies.Expansion.TokenContributors
import ItemDependencies.Graph.DefinitionEncoding
import ItemDependencies.Graph.DefinitionNormalForm
import ItemDependencies.Graph.ExpansionRelations
import ItemDependencies.Monomorphization.CanonicalPaths
import ItemDependencies.Retention.CrateLoadDisjunctions
import ItemDependencies.Retention.DefinitionProducers
import ItemDependencies.Retention.ExpansionSurvival
import ItemDependencies.Retention.MacroProvenance
import ItemDependencies.Retention.MacroRun
import ItemDependencies.Retention.SourceClosure
import ItemDependencies.Retention.SourceSiteOwners
import ItemDependencies.Selection.OrderIndependence
import ItemDependencies.Snapshot.CollectionEdges
import ItemDependencies.Snapshot.SiblingOrdinals
import ItemDependencies.Source.AtomicGroups
import ItemDependencies.Source.ComponentForests
import ItemDependencies.Source.DeriveRewrite
import ItemDependencies.Source.LexicalOwners
import ItemDependencies.Source.MacroRuleSelection
import ItemDependencies.Source.OriginalOffsets
import ItemDependencies.Source.PoundShortcut
import ItemDependencies.Source.TemplateCandidates
import ItemDependencies.Source.TemplateTokenRanges
import ItemDependencies.Source.TupleRewrite
import ItemDependencies.Source.UseRewrite
