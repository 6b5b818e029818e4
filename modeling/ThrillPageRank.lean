import ThrillPageRank.Basic
import ThrillPageRank.Dia
import ThrillPageRank.PageRank
import ThrillPageRank.PowerIteration
import ThrillPageRank.JoinShape
import ThrillPageRank.LineParser
import ThrillPageRank.Grouping
import ThrillPageRank.Output
import ThrillPageRank.Consume
import ThrillPageRank.Materialize
import ThrillPageRank.LocationDetection
import ThrillPageRank.JoinSemantics
import ThrillPageRank.ReduceOn
import ThrillPageRank.PageRankOn
import ThrillPageRank.JoinShapeOn
import ThrillPageRank.EdgePerLineOn
import ThrillPageRank.JoinEdgePerLineOn
import ThrillPageRank.EdgePerLine
