import SqlSharding.Json.Printer
import SqlSharding.Rewrite.Target
import SqlSharding.Routing.Configuration
import SqlSharding.Routing.Router
import SqlSharding.Sql.Column
import SqlSharding.Text.Bytes
import SqlSharding.ValueJson
import SqlSharding.Physical.Backend
import SqlSharding.Sources.Registry
import SqlSharding.Session.Basic
import SqlSharding.Execution.Statements
import SqlSharding.Client.Server
import SqlSharding.Execution.Workload
import SqlSharding.Physical.Scripted
import SqlSharding.Proofs.Outcomes
import SqlSharding.Proofs.Pruning
import SqlSharding.Proofs.Companion
import SqlSharding.Proofs.Queries
import SqlSharding.Proofs.Statements
import SqlSharding.Proofs.Invariants
import SqlSharding.Proofs.Layout
import SqlSharding.Proofs.Runs
import SqlSharding.Proofs.Points
import SqlSharding.Proofs.Taking
import SqlSharding.Proofs.KeyPlaces
import SqlSharding.Proofs.Edits
import SqlSharding.Proofs.Replacements
import SqlSharding.Proofs.Formula
import SqlSharding.Proofs.Views
import SqlSharding.Proofs.Where
import SqlSharding.Proofs.Neighbours
import SqlSharding.Proofs.Lexemes
import SqlSharding.Proofs.Spellings
import SqlSharding.Proofs.Detached
import SqlSharding.Proofs.Exchanges
import SqlSharding.Proofs.Operands
import SqlSharding.Proofs.Clauses
import SqlSharding.Proofs.Gathering
import SqlSharding.Proofs.GatheredQueries
import SqlSharding.Proofs.GatheredStatements
import SqlSharding.Proofs.Placeholders
import SqlSharding.Proofs.Blocks
import SqlSharding.Proofs.Pages
import SqlSharding.Proofs.Widening
import SqlSharding.Proofs.Splices
import SqlSharding.Proofs.Literals
import SqlSharding.Proofs.KeyBinding
import SqlSharding.Proofs.TableNames
import SqlSharding.Proofs.Assignments
import SqlSharding.Proofs.GeneratedKeys
import SqlSharding.Proofs.Offsets
import SqlSharding.Proofs.RecordedNames
import SqlSharding.Proofs.Renaming
import SqlSharding.Proofs.RenamedWalks
import SqlSharding.Proofs.Rereading
import SqlSharding.Proofs.Selections
import SqlSharding.Proofs.Rules
import SqlSharding.Proofs.DistinctUnits
import SqlSharding.Proofs.InsertSet
import SqlSharding.Proofs.QueryLevels
import SqlSharding.Proofs.Bounds
import SqlSharding.Proofs.Expressions
import SqlSharding.Proofs.NamesRead
import SqlSharding.Proofs.StatementNames
import SqlSharding.Proofs.Qualifiers
import SqlSharding.Proofs.PassedOver
import SqlSharding.Proofs.QualifiersRead
import SqlSharding.Proofs.QualifierPoints
import SqlSharding.Proofs.BoundSigns
import SqlSharding.Proofs.Endings
import SqlSharding.Proofs.ErrorPlaces
import SqlSharding.Proofs.Relocation
import SqlSharding.Proofs.Respacing
import SqlSharding.Proofs.RegisteredSources
import SqlSharding.Proofs.Answers
import SqlSharding.Proofs.PoolHistories
import SqlSharding.Proofs.CallHistories
import SqlSharding.Proofs.EngineCalls
import SqlSharding.Proofs.BatchGroups
import SqlSharding.Proofs.Openings
import SqlSharding.Proofs.SessionSteps
import SqlSharding.Proofs.SessionHistories
import SqlSharding.Proofs.Caches
import SqlSharding.Proofs.ConnectionPlaces
import SqlSharding.Proofs.KeptConnections
import SqlSharding.Proofs.ReadRoles
import SqlSharding.Proofs.EngineTraffic
import SqlSharding.Proofs.ServerSessions
import SqlSharding.Proofs.FailedBindings
import SqlSharding.Proofs.SessionCalls
import SqlSharding.Proofs.CallsOnAll
import SqlSharding.Proofs.AppliedSettings
import SqlSharding.Proofs.UnitCalls
import SqlSharding.Proofs.StatementCalls
import SqlSharding.Proofs.Counters
import SqlSharding.Proofs.UnitEvents
import SqlSharding.Proofs.EventHistories
import SqlSharding.Proofs.EventConservation
import SqlSharding.Proofs.EngineEvents
import SqlSharding.Proofs.TimedKeys
import SqlSharding.Proofs.WrittenNames
import SqlSharding.Proofs.BalancedTokens
import SqlSharding.Proofs.TokensPassed
import SqlSharding.Proofs.InsertValues
import SqlSharding.Proofs.EditLists
import SqlSharding.Proofs.Remainders
import SqlSharding.Proofs.ValueSets
import SqlSharding.Proofs.WholeNumbers
import SqlSharding.Proofs.ShardingIntegers
import SqlSharding.Proofs.TextPieces
import SqlSharding.Proofs.InlineLists
import SqlSharding.Proofs.StringLiterals
import SqlSharding.Proofs.Rings
import SqlSharding.Proofs.MeteredWalks
import SqlSharding.Proofs.MeteredReaders
import SqlSharding.Proofs.MeteredStatements
import SqlSharding.Proofs.ForwardWalks
import SqlSharding.Proofs.Credits
import SqlSharding.Proofs.BoundedReading
import SqlSharding.Proofs.Openers
import SqlSharding.Proofs.ValueOrder
